import Reckon.Proofs.Intervals
import Reckon.Proofs.PrincipalRoot
import Reckon.Value

/-! Real numbers among the complex ones. Sums, differences and products of reals are the same
whether they are computed as reals or with an imaginary part of zero. The two square roots agree
down to minus half the largest number; below that the complex one adds the modulus to the magnitude
before it halves, and the sum overflows. -/

set_option autoImplicit false

namespace Reckon
namespace Binary64

@[simp] theorem same_self (x : Binary64) : x.same x = true := by simp [same]

theorem rank?_of_isZero {x : Binary64} (h : x.isZero = true) : x.rank? = some 0 := by
  cases x with
  | finite s u hu =>
    obtain rfl : u = 0 := eq_of_beq h
    cases s <;> rfl
  | _ => cases h

theorem same_of_isZero {x y : Binary64} (hx : x.isZero = true) (hy : y.isZero = true) :
    x.same y = true := by
  simp [same, rank?_of_isZero hx, rank?_of_isZero hy]

theorem zero_eq : (0 : Binary64) = zero false := ofNat_zero

theorem isZero_zero : (0 : Binary64).isZero = true := congrArg isZero zero_eq

theorem same_infinite {x : Binary64} (h : x.isFinite = true) (s : Bool) :
    x.same (.infinite s) = false := by
  obtain ⟨t, u, hu, rfl⟩ := exists_finite h
  have hlimit : u < unitLimit := hu.2
  have hrank : same (.finite t u hu) (.infinite s) =
      (some (signed t u) == some (signed s unitLimit)) := rfl
  rw [hrank]
  cases s <;> cases t <;> simp [signed] <;> omega

theorem same_ofTotal (zeroSign s : Bool) (k den : Nat) :
    (ofRatio s k den).same (ofTotal zeroSign (signed s k) den) = true := by
  by_cases hk : k = 0
  · subst hk
    have htotal : ofTotal zeroSign (signed s 0) den = zero zeroSign := by
      cases s <;> rfl
    rw [htotal, ofRatio_zero]
    exact same_of_isZero rfl rfl
  · have hterm : signed s k ≠ 0 ∧ decide (signed s k < 0) = s ∧ (signed s k).natAbs = k := by
      cases s <;> simp [signed] <;> omega
    rw [ofTotal, if_neg hterm.1, hterm.2.1, hterm.2.2]
    exact same_self _

theorem same_mulAdd_zero {x y : Binary64} (hx : x.isFinite = true) (hy : y.isFinite = true)
    (u : Bool) : (x * y).same (mulAdd x y (zero u)) = true := by
  obtain ⟨s, m, hm, rfl⟩ := exists_finite hx
  obtain ⟨t, n, hn, rfl⟩ := exists_finite hy
  have hmul : Binary64.finite s m hm * .finite t n hn = ofRatio (s ^^ t) (m * n) unitsPerOne := rfl
  have hnothing : signed u (0 * unitsPerOne) = 0 := by
    rw [Nat.zero_mul]
    cases u <;> rfl
  rw [hmul, zero, mulAdd, hnothing, Int.add_zero]
  exact same_ofTotal _ _ _ _

theorem isZero_mulAdd_zero {x y : Binary64} (hx : x.isFinite = true) (hy : y.isFinite = true) :
    (mulAdd x 0 (0 * y)).isZero = true := by
  obtain ⟨s, m, hm, rfl⟩ := exists_finite hx
  obtain ⟨t, n, hn, rfl⟩ := exists_finite hy
  have hmul : zero false * Binary64.finite t n hn = ofRatio (false ^^ t) (0 * n) unitsPerOne := rfl
  have hnothing (u : Bool) : signed u 0 = 0 := by cases u <;> rfl
  rw [zero_eq, hmul, Nat.zero_mul, ofRatio_zero, zero, zero, mulAdd, Nat.mul_zero, Nat.zero_mul,
    hnothing, hnothing, Int.add_zero, ofTotal, if_pos rfl]
  rfl

theorem zero_atMost_of_clear {m : Nat} (hm : Storable m) : atMost 0 (.finite false m hm) = true :=
  zero_atMost_finite.2 (reaches_finite.2 (.inl ⟨rfl, Nat.zero_le m⟩))

theorem not_zero_atMost_of_pos {m : Nat} (hm : Storable m) (hpos : 0 < m) :
    ¬ atMost 0 (.finite true m hm) = true := fun h =>
  not_reaches_zero.2 ⟨rfl, by omega⟩ (zero_atMost_finite.1 h)

theorem hypot_zero {s : Bool} {m : Nat} {hm : Storable m} (hpos : 0 < m) :
    hypot (.finite s m hm) 0 = .finite false m hm := by
  have hbetween : Between m m (ofRoot (m * m + 0 * 0)) :=
    between_ofRoot hm.fits hm (by omega) (by omega)
  rw [zero_eq, zero, hypot]
  exact hbetween.eq_finite hm hpos

theorem full_fraction_lt : 2 ^ 52 - 1 < 2 ^ 52 := by omega

def largest : Binary64 := ofFields 2046 (2 ^ 52 - 1) (by omega) full_fraction_lt

def least : Binary64 := ofFields 0 1 (by omega) (by omega)

theorem ofRatio_eq_infinite {num den n : Nat} (s : Bool) (hn : Fits n) (hden : 0 < den)
    (hlimit : unitLimit ≤ n) (hle : n * den ≤ num) : ofRatio s num den = .infinite s := by
  have hlow : n ≤ nearest num den := le_nearest hn hden hle
  rw [ofRatio, dif_neg (by omega)]

/-- The sum of a number and itself overflows in the upper half of the range. -/
theorem half_add_self {m : Nat} {hm : Storable m} (hpos : 0 < m) :
    (Binary64.finite false m hm + .finite false m hm) / 2 =
      if m ≤ halfLargestUnits then .finite false m hm else .infinite false := by
  split
  · rename_i hle
    rw [← midpoint_of_le hle hle, midpoint_self hpos]
  · rename_i hlt
    have hlimit : unitLimit ≤ 2 * m := by
      by_contra hstorable
      have := (storable_iff_of_fits hm.fits.double).1 ⟨hm.fits.double, by omega⟩
      omega
    have hsum : Binary64.finite false m hm + .finite false m hm = .infinite false := by
      show ofTotal false ((m : Int) + (m : Int)) 1 = .infinite false
      rw [ofTotal, if_neg (by omega), decide_eq_false (by omega)]
      exact ofRatio_eq_infinite false hm.fits.double Nat.one_pos hlimit (by omega)
    rw [hsum, two_eq]
    rfl

theorem copySign_of_clear {x y : Binary64} (hx : x.isNegative = false) (hy : y.isNegative = false) :
    x.copySign y = x := by
  cases x with
  | nan => rfl
  | infinite s =>
    obtain rfl : s = false := hx
    rw [copySign, hy]
  | finite s u hu =>
    obtain rfl : s = false := hx
    rw [copySign, hy]

end Binary64

namespace Complex
open Binary64

theorem same_iff {z w : Complex} :
    z.same w = true ↔ z.re.same w.re = true ∧ z.im.same w.im = true :=
  Bool.and_eq_true_iff

@[simp] theorem ofReal_re (x : Binary64) : (ofReal x).re = x := rfl

@[simp] theorem ofReal_im (x : Binary64) : (ofReal x).im = 0 := rfl

theorem sqrt_of_isZero {z : Complex} (hz : z.isZero = true) : z.sqrt = ⟨0, z.im⟩ := by
  rw [Complex.sqrt, if_pos hz]

theorem sqrt_of_reaches {z : Complex} (hz : z.isZero = false) (hre : atMost 0 z.re = true) :
    z.sqrt = ⟨(midpoint (hypot z.re z.im) z.re).sqrt,
      z.im / (2 * (midpoint (hypot z.re z.im) z.re).sqrt)⟩ := by
  rw [Complex.sqrt, if_neg (by rw [hz]; exact Bool.false_ne_true), if_pos hre]

theorem sqrt_of_not_reaches {z : Complex} (hz : z.isZero = false) (hre : ¬ atMost 0 z.re = true) :
    z.sqrt = ⟨z.im.abs / (2 * ((hypot z.re z.im - z.re) / 2).sqrt),
      ((hypot z.re z.im - z.re) / 2).sqrt.copySign z.im⟩ := by
  rw [Complex.sqrt, if_neg (by rw [hz]; exact Bool.false_ne_true), if_neg hre]

section Axis
variable {m : Nat} (hm : Storable m)

theorem isZero_ofReal {s : Bool} (hpos : 0 < m) : (ofReal (.finite s m hm)).isZero = false := by
  have hm0 : (m == 0) = false := beq_eq_false_iff_ne.2 (by omega)
  show ((m == 0) && (0 : Binary64).isZero) = false
  rw [hm0]
  rfl

theorem sqrt_ofReal_of_pos (hpos : 0 < m) :
    ∃ i : Binary64, i.isZero = true ∧
      sqrt (ofReal (.finite false m hm)) = ⟨(Binary64.finite false m hm).sqrt, i⟩ := by
  have hroot : AtLeast 1 (Binary64.finite false m hm).sqrt :=
    (atLeast_finite.2 (by omega)).sqrt (by omega)
  refine ⟨0 / (2 * (Binary64.finite false m hm).sqrt), ?_, ?_⟩
  · rw [zero_eq]
    exact (hroot.double (by omega)).zero_div
  · rw [sqrt_of_reaches (isZero_ofReal hm hpos) (zero_atMost_of_clear hm), ofReal_re, ofReal_im,
      hypot_zero hpos, midpoint_self hpos]

/-- Below zero the complex root is the root of the magnitude, as long as twice the magnitude does
not overflow. -/
theorem sqrt_ofReal_of_neg (hpos : 0 < m) :
    ∃ r : Binary64, r.isZero = true ∧ sqrt (ofReal (.finite true m hm)) =
      ⟨r, if m ≤ halfLargestUnits then (Binary64.finite false m hm).sqrt else .infinite false⟩ := by
  have hsum : hypot (.finite true m hm) 0 - .finite true m hm =
      .finite false m hm + .finite false m hm := by
    rw [hypot_zero hpos]
    rfl
  have hroot : ((hypot (.finite true m hm) 0 - .finite true m hm) / 2).sqrt =
      if m ≤ halfLargestUnits then (Binary64.finite false m hm).sqrt else .infinite false := by
    rw [hsum, half_add_self hpos]
    split <;> rfl
  have hleast : AtLeast 1
      (if m ≤ halfLargestUnits then (Binary64.finite false m hm).sqrt else .infinite false) := by
    split
    · exact (atLeast_finite.2 (by omega)).sqrt (by omega)
    · exact atLeast_infinite 1
  rw [sqrt_of_not_reaches (isZero_ofReal hm hpos) (not_zero_atMost_of_pos hm hpos), ofReal_re,
    ofReal_im, hroot, copySign_of_clear hleast.clear (congrArg isNegative zero_eq)]
  refine ⟨_, ?_, rfl⟩
  rw [zero_eq]
  exact (hleast.double (by omega)).zero_div

end Axis

theorem ofReal_add_same (x y : Binary64) :
    (ofReal (x + y)).same (ofReal x + ofReal y) = true := by
  have hzero : ((0 : Binary64) + 0).isZero = true := by decide +kernel
  exact same_iff.2 ⟨same_self _, same_of_isZero isZero_zero hzero⟩

theorem ofReal_sub_same (x y : Binary64) :
    (ofReal (x - y)).same (ofReal x - ofReal y) = true := by
  have hzero : ((0 : Binary64) - 0).isZero = true := by decide +kernel
  exact same_iff.2 ⟨same_self _, same_of_isZero isZero_zero hzero⟩

theorem ofReal_mul_same {x y : Binary64} (hx : x.isFinite = true) (hy : y.isFinite = true) :
    (ofReal (x * y)).same (ofReal x * ofReal y) = true := by
  have hminus : -((0 : Binary64) * 0) = zero true := by decide +kernel
  refine same_iff.2 ⟨?_, same_of_isZero isZero_zero (isZero_mulAdd_zero hx hy)⟩
  show (x * y).same (mulAdd x y (-(0 * 0))) = true
  rw [hminus]
  exact same_mulAdd_zero hx hy true

end Complex

namespace Value
open Binary64

theorem neg_halfLargest_atMost {s : Bool} {m : Nat} {hm : Storable m} :
    atMost (-halfLargest) (.finite s m hm) = true ↔ s = false ∨ m ≤ halfLargestUnits := by
  have hneg : -halfLargest = .finite true halfLargestUnits storable_halfLargestUnits := by
    rw [halfLargest_eq]
    rfl
  rw [hneg, atMost_finite]
  cases s with
  | false =>
    simp only [signed, Bool.false_eq_true, if_false, if_true, true_or, iff_true]
    omega
  | true =>
    simp only [signed, if_true, Bool.true_eq_false, false_or]
    omega

theorem toComplex_sqrt_of_reaches {x : Binary64} (h : atMost 0 x = true) :
    (real x).sqrt.toComplex = ⟨x.sqrt, 0⟩ := by
  rw [Value.sqrt, if_pos h]
  rfl

theorem toComplex_sqrt_of_not_reaches {x : Binary64} (h : ¬ atMost 0 x = true) :
    (real x).sqrt.toComplex = ⟨0, (-x).sqrt⟩ := by
  rw [Value.sqrt, if_neg h]
  rfl

theorem sqrt_promoted_same_of_zero (s : Bool) (hm : Storable 0) :
    (real (.finite s 0 hm)).sqrt.toComplex.same (Complex.ofReal (.finite s 0 hm)).sqrt = true := by
  have hreach : atMost 0 (.finite s 0 hm) = true :=
    zero_atMost_finite.2 (by cases s <;> simp [reaches_finite])
  have hzero : (Complex.ofReal (.finite s 0 hm)).isZero = true :=
    Bool.and_eq_true_iff.2 ⟨rfl, isZero_zero⟩
  rw [toComplex_sqrt_of_reaches hreach, Complex.sqrt_of_isZero hzero, Complex.same_iff]
  exact ⟨same_of_isZero rfl isZero_zero, same_self 0⟩

theorem sqrt_promoted_same_of_pos {m : Nat} (hm : Storable m) (hpos : 0 < m) :
    (real (.finite false m hm)).sqrt.toComplex.same
      (Complex.ofReal (.finite false m hm)).sqrt = true := by
  obtain ⟨i, hi, hroot⟩ := Complex.sqrt_ofReal_of_pos hm hpos
  rw [toComplex_sqrt_of_reaches (zero_atMost_of_clear hm), hroot, Complex.same_iff]
  exact ⟨same_self _, same_of_isZero isZero_zero hi⟩

theorem isFinite_sqrt_of_clear {m : Nat} (hm : Storable m) :
    (Binary64.finite false m hm).sqrt.isFinite = true := by
  have hself : Between m m (.finite false m hm) := between_self rfl
  exact (hself.sqrt storable_zero.fits (Nat.zero_le _)).isFinite

theorem sqrt_promoted_same_of_neg {m : Nat} (hm : Storable m) (hpos : 0 < m) :
    (real (.finite true m hm)).sqrt.toComplex.same
      (Complex.ofReal (.finite true m hm)).sqrt = true ↔ m ≤ halfLargestUnits := by
  have hneg : -Binary64.finite true m hm = .finite false m hm := rfl
  obtain ⟨r, hr, hroot⟩ := Complex.sqrt_ofReal_of_neg hm hpos
  rw [toComplex_sqrt_of_not_reaches (not_zero_atMost_of_pos hm hpos), hroot, hneg,
    Complex.same_iff]
  by_cases hle : m ≤ halfLargestUnits
  · rw [if_pos hle]
    exact iff_of_true ⟨same_of_isZero isZero_zero hr, same_self _⟩ hle
  · rw [if_neg hle, same_infinite (isFinite_sqrt_of_clear hm)]
    exact iff_of_false (fun h => Bool.false_ne_true h.2) hle

/-- The root of a real and the root of the complex number that it is agree just when the real is not
below minus half the largest number. -/
theorem sqrt_promoted_same_iff {x : Binary64} (hx : x.isFinite = true) :
    (real x).sqrt.toComplex.same (complex ⟨x, 0⟩).sqrt.toComplex = true ↔
      atMost (-halfLargest) x = true := by
  obtain ⟨s, m, hm, rfl⟩ := exists_finite hx
  have hpromoted : (complex ⟨.finite s m hm, 0⟩).sqrt.toComplex =
      (Complex.ofReal (.finite s m hm)).sqrt := rfl
  rw [neg_halfLargest_atMost, hpromoted]
  rcases Nat.eq_zero_or_pos m with rfl | hpos
  · exact iff_of_true (sqrt_promoted_same_of_zero s hm) (.inr (Nat.zero_le _))
  · cases s with
    | false => exact iff_of_true (sqrt_promoted_same_of_pos hm hpos) (.inl rfl)
    | true =>
      rw [sqrt_promoted_same_of_neg hm hpos]
      simp

theorem sqrt_promoted_on_both_sides_of_edge :
    (-halfLargest).isFinite = true ∧
      (real (-halfLargest)).sqrt.toComplex.same (complex ⟨-halfLargest, 0⟩).sqrt.toComplex = true ∧
      (-(halfLargest * 2)).isFinite = true ∧
      ¬ (real (-(halfLargest * 2))).sqrt.toComplex.same
        (complex ⟨-(halfLargest * 2), 0⟩).sqrt.toComplex = true := by
  have hedge : (-halfLargest).isFinite = true := by decide +kernel
  have hbeyond : (-(halfLargest * 2)).isFinite = true := by decide +kernel
  refine ⟨hedge, (sqrt_promoted_same_iff hedge).2 (by decide +kernel), hbeyond, fun h => ?_⟩
  exact absurd ((sqrt_promoted_same_iff hbeyond).1 h) (by decide +kernel)

theorem sqrt_beyond_edge {m : Nat} (hm : Storable m) (hlt : halfLargestUnits < m) :
    (real (.finite true m hm)).sqrt = complex ⟨0, (Binary64.finite false m hm).sqrt⟩ ∧
      (Binary64.finite false m hm).sqrt.isFinite = true ∧
      ∃ r, r.isZero = true ∧
        (complex ⟨.finite true m hm, 0⟩).sqrt = complex ⟨r, .infinite false⟩ := by
  have hpos : 0 < m := Nat.zero_lt_of_lt hlt
  obtain ⟨r, hr, hroot⟩ := Complex.sqrt_ofReal_of_neg hm hpos
  rw [if_neg (Nat.not_le.2 hlt)] at hroot
  refine ⟨?_, isFinite_sqrt_of_clear hm, r, hr, congrArg _ hroot⟩
  rw [Value.sqrt, if_neg (not_zero_atMost_of_pos hm hpos)]
  rfl

/-- At the largest magnitude the two roots differ. -/
theorem not_sqrt_promoted_same_of_largest :
    (real (-largest)).sqrt = complex ⟨0, largest.sqrt⟩ ∧ largest.sqrt.isFinite = true ∧
      (∃ r, r.isZero = true ∧ (complex ⟨-largest, 0⟩).sqrt = complex ⟨r, .infinite false⟩) ∧
      ¬ ∀ x : Binary64, x.isFinite = true →
        (real x).sqrt.toComplex.same (complex ⟨x, 0⟩).sqrt.toComplex = true := by
  have hstorable : Storable (fieldUnits 2046 (2 ^ 52 - 1)) :=
    storable_fieldUnits (by omega) (by omega)
  have hlt : halfLargestUnits < fieldUnits 2046 (2 ^ 52 - 1) := by decide +kernel
  obtain ⟨hreal, hfinite, hcomplex⟩ := sqrt_beyond_edge hstorable hlt
  refine ⟨hreal, hfinite, hcomplex, fun hclaim => ?_⟩
  exact Nat.not_le.2 hlt
    ((sqrt_promoted_same_of_neg hstorable (Nat.zero_lt_of_lt hlt)).1 (hclaim (-largest) rfl))

/-- Sums, differences and products of reals do not depend on which of the operands are taken as
complex numbers. -/
theorem apply_promoted_same {op : Operator} {x y : Binary64} (hop : op ≠ .divide)
    (hx : x.isFinite = true) (hy : y.isFinite = true) :
    ∃ (r : Binary64) (z : Complex), apply op (real x) (real y) = .ok (real r) ∧
      apply op (complex ⟨x, 0⟩) (complex ⟨y, 0⟩) = .ok (complex z) ∧
      apply op (complex ⟨x, 0⟩) (real y) = .ok (complex z) ∧
      apply op (real x) (complex ⟨y, 0⟩) = .ok (complex z) ∧
      (real r).toComplex.same z = true := by
  cases op with
  | plus => exact ⟨_, _, rfl, rfl, rfl, rfl, Complex.ofReal_add_same x y⟩
  | minus => exact ⟨_, _, rfl, rfl, rfl, rfl, Complex.ofReal_sub_same x y⟩
  | times => exact ⟨_, _, rfl, rfl, rfl, rfl, Complex.ofReal_mul_same hx hy⟩
  | divide => exact absurd rfl hop

/-- The product of two small negative numbers rounds to zero, and among complex numbers its
imaginary part is a zero of the other sign. -/
theorem times_promoted_same_of_underflow :
    let x := -least
    let y := -power 1022 (by omega)
    Operator.times ≠ .divide ∧ x.isFinite = true ∧ y.isFinite = true ∧
      (Complex.mk x 0 * Complex.mk y 0) = ⟨zero false, zero true⟩ ∧
      ∃ (r : Binary64) (z : Complex), apply .times (real x) (real y) = .ok (real r) ∧
        apply .times (complex ⟨x, 0⟩) (complex ⟨y, 0⟩) = .ok (complex z) ∧
        apply .times (complex ⟨x, 0⟩) (real y) = .ok (complex z) ∧
        apply .times (real x) (complex ⟨y, 0⟩) = .ok (complex z) ∧
        (real r).toComplex.same z = true := by
  intro x y
  have hx : x.isFinite = true := by decide +kernel
  have hy : y.isFinite = true := by decide +kernel
  exact ⟨by decide, hx, hy, by decide +kernel, apply_promoted_same (by decide) hx hy⟩

end Value
end Reckon
