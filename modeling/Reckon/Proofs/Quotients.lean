import Reckon.Proofs.Endings
import Reckon.Proofs.Intervals
import Reckon.Proofs.Restore

/-! Quotients that are numbers. A division reports a divisor of zero by looking at its parts, but it
divides complex numbers by the squared modulus, which is zero or infinite for many other divisors.
For finite operands a part of the quotient is nan exactly when dividend and squared modulus both
vanish or both overflow on the way. A squared modulus that does neither suits every dividend, and
any other one does not even suit the divisor itself. -/

set_option autoImplicit false

namespace Reckon
namespace Binary64

theorem isNan_ofTotal (zeroSign : Bool) (total : Int) (den : Nat) :
    (ofTotal zeroSign total den).isNan = false := by
  unfold ofTotal
  split
  · rfl
  · exact isNan_ofRatio _ _ _

theorem isNan_mul {x y : Binary64} (hx : x.isFinite = true) (hy : y.isFinite = true) :
    (x * y).isNan = false := by
  obtain ⟨s, m, hm, rfl⟩ := exists_finite hx
  obtain ⟨t, n, hn, rfl⟩ := exists_finite hy
  exact isNan_ofRatio _ _ _

theorem isNan_add {x y : Binary64} (hx : x.isFinite = true) (hy : y.isFinite = true) :
    (x + y).isNan = false := by
  obtain ⟨s, m, hm, rfl⟩ := exists_finite hx
  obtain ⟨t, n, hn, rfl⟩ := exists_finite hy
  exact isNan_ofTotal _ _ _

theorem isNan_mulAdd {x y z : Binary64} (hx : x.isFinite = true) (hy : y.isFinite = true)
    (hz : z.isNan = false) : (mulAdd x y z).isNan = false := by
  obtain ⟨s, m, hm, rfl⟩ := exists_finite hx
  obtain ⟨t, n, hn, rfl⟩ := exists_finite hy
  cases z with
  | nan => cases hz
  | infinite u => rfl
  | finite u k hk => exact isNan_ofTotal _ _ _

/-- A quotient of numbers is one unless both of them vanish or both are infinite. -/
theorem isNan_div_eq_false_iff {x y : Binary64} (hx : x.isNan = false) (hy : y.isNan = false) :
    (x / y).isNan = false ↔
      (y.isZero = true → x.isZero = false) ∧ (y.isFinite = false → x.isFinite = true) := by
  cases x with
  | nan => cases hx
  | infinite s =>
    cases y with
    | nan => cases hy
    | infinite t =>
      exact iff_of_false Bool.false_ne_true.symm fun h => Bool.false_ne_true (h.2 rfl)
    | finite t n hn => exact iff_of_true rfl ⟨fun _ => rfl, fun h => (nomatch h)⟩
  | finite s m hm =>
    cases y with
    | nan => cases hy
    | infinite t => exact iff_of_true rfl ⟨fun h => (nomatch h), fun _ => rfl⟩
    | finite t n hn =>
      have hdiv : Binary64.finite s m hm / .finite t n hn =
          if n = 0 then if m = 0 then nan else .infinite (s ^^ t)
          else ofRatio (s ^^ t) (m * unitsPerOne) n := rfl
      have hzeros : ((Binary64.finite t n hn).isZero = true →
          (Binary64.finite s m hm).isZero = false) ↔ (n = 0 → m ≠ 0) :=
        imp_congr beq_iff_eq beq_eq_false_iff_ne
      rw [hdiv, hzeros]
      by_cases hn0 : n = 0
      · by_cases hm0 : m = 0
        · rw [if_pos hn0, if_pos hm0]
          exact iff_of_false Bool.false_ne_true.symm fun h => h.1 hn0 hm0
        · rw [if_pos hn0, if_neg hm0]
          exact iff_of_true rfl ⟨fun _ => hm0, fun _ => rfl⟩
      · rw [if_neg hn0]
        exact iff_of_true (isNan_ofRatio _ _ _) ⟨fun h => absurd h hn0, fun _ => rfl⟩

theorem isZero_ofRatio {s : Bool} {num den : Nat} (hden : 0 < den) :
    (ofRatio s num den).isZero = true ↔ 2 * num ≤ den := by
  rw [← nearest_eq_zero_iff hden, ofRatio]
  split
  · exact beq_iff_eq
  · rename_i hlimit
    have hpos : 0 < unitLimit := storable_zero.2
    exact iff_of_false Bool.false_ne_true (by omega)

theorem isZero_ofTotal {zeroSign : Bool} {total den : Nat} (hden : 0 < den) :
    (ofTotal zeroSign (total : Int) den).isZero = true ↔ 2 * total ≤ den := by
  rcases Nat.eq_zero_or_pos total with rfl | hpos
  · exact iff_of_true rfl (Nat.zero_le _)
  · rw [ofTotal, if_neg (by omega), isZero_ofRatio hden, Int.natAbs_natCast]

theorem mul_self_finite (s : Bool) {m : Nat} (hm : Storable m) :
    Binary64.finite s m hm * .finite s m hm = ofRatio false (m * m) unitsPerOne := by
  show ofRatio (s ^^ s) (m * m) unitsPerOne = _
  rw [Bool.xor_self]

theorem isZero_mulAdd_self {s : Bool} {m : Nat} {hm : Storable m} {y : Binary64}
    (hy : AtLeast 0 y) :
    (mulAdd (.finite s m hm) (.finite s m hm) y).isZero = true ↔
      (Binary64.finite s m hm * .finite s m hm).isZero = true ∧ y.isZero = true := by
  have hpos := unitsPerOne_pos
  rcases hy.cases with rfl | ⟨k, hk, rfl, -⟩
  · exact iff_of_false Bool.false_ne_true fun h => Bool.false_ne_true h.2
  · have hk0 : (Binary64.finite false k hk).isZero = true ↔ k = 0 := beq_iff_eq
    have hsum : mulAdd (.finite s m hm) (.finite s m hm) (.finite false k hk) =
        ofTotal false ((m * m + k * unitsPerOne : Nat) : Int) unitsPerOne := by
      rw [mulAdd, Bool.xor_self, Int.natCast_add]
      rfl
    rw [hsum, isZero_ofTotal hpos, mul_self_finite, isZero_ofRatio hpos, hk0]
    rcases Nat.eq_zero_or_pos k with rfl | hk1
    · rw [Nat.zero_mul, Nat.add_zero]
      exact (and_iff_left rfl).symm
    · have hle : unitsPerOne ≤ k * unitsPerOne := Nat.le_mul_of_pos_left _ hk1
      generalize unitsPerOne = u at hpos hle
      omega

theorem Between.mulAdd_self {s : Bool} {m c d lo hi : Nat} {hm : Storable m} {y : Binary64}
    (hy : Between c d y) (hlo : Fits lo) (hhi : Storable hi)
    (hle : lo * unitsPerOne ≤ m * m + c * unitsPerOne)
    (hge : m * m + d * unitsPerOne ≤ hi * unitsPerOne) :
    Between lo hi (mulAdd (.finite s m hm) (.finite s m hm) y) := by
  obtain ⟨t, k, hk, rfl, hck, hkd, ht⟩ := hy.cases
  have hadded : signed t (k * unitsPerOne) = ((k * unitsPerOne : Nat) : Int) :=
    signed_eq_self_iff.2 ((signed_eq_self_iff.1 ht).imp_right fun hk0 => by rw [hk0, Nat.zero_mul])
  have hclear : signed false (m * m) = ((m * m : Nat) : Int) := rfl
  have hlow : c * unitsPerOne ≤ k * unitsPerOne := Nat.mul_le_mul_right _ hck
  have hhigh : k * unitsPerOne ≤ d * unitsPerOne := Nat.mul_le_mul_right _ hkd
  rw [mulAdd, Bool.xor_self, hclear, hadded, ← Int.natCast_add]
  exact between_ofTotal _ hlo hhi unitsPerOne_pos
    (Nat.le_trans hle (Nat.add_le_add_left hlow _)) (Nat.le_trans (Nat.add_le_add_left hhigh _) hge)

end Binary64

namespace Complex
open Binary64

/-- The squared modulus as a division computes it. -/
def squaredModulus (w : Complex) : Binary64 := .mulAdd w.re w.re (w.im * w.im)

def crossed (z w : Complex) : Complex :=
  ⟨.mulAdd z.re w.re (z.im * w.im), .mulAdd z.im w.re (-(z.re * w.im))⟩

theorem div_eq (z w : Complex) :
    z / w = ⟨(z.crossed w).re / w.squaredModulus, (z.crossed w).im / w.squaredModulus⟩ := rfl

theorem crossed_self_re (w : Complex) : (w.crossed w).re = w.squaredModulus := rfl

theorem isZero_squaredModulus {w : Complex} (hre : w.re.isFinite = true)
    (him : w.im.isFinite = true) :
    w.squaredModulus.isZero = true ↔
      (w.re * w.re).isZero = true ∧ (w.im * w.im).isZero = true := by
  obtain ⟨re, im⟩ := w
  obtain ⟨s, m, hm, rfl⟩ := exists_finite hre
  obtain ⟨t, n, hn, rfl⟩ := exists_finite him
  have hsquare : AtLeast 0 (Binary64.finite t n hn * .finite t n hn) := by
    rw [mul_self_finite]
    exact atLeast_ofRatio (Nat.zero_le _) unitsPerOne_pos (by omega)
  exact isZero_mulAdd_self hsquare

theorem isNan_squaredModulus {w : Complex} (hre : w.re.isFinite = true)
    (him : w.im.isFinite = true) : w.squaredModulus.isNan = false :=
  isNan_mulAdd hre hre (isNan_mul him him)

theorem isNan_crossed {z w : Complex} (hz : z.re.isFinite = true ∧ z.im.isFinite = true)
    (hw : w.re.isFinite = true ∧ w.im.isFinite = true) :
    (z.crossed w).re.isNan = false ∧ (z.crossed w).im.isNan = false :=
  ⟨isNan_mulAdd hz.1 hw.1 (isNan_mul hz.2 hw.2),
    isNan_mulAdd hz.2 hw.1 ((isNan_neg _).trans (isNan_mul hz.1 hw.2))⟩

/-- Where the squared modulus vanishes no part of the crossed dividend does, and where it overflows
none of them does. -/
structure Divisible (z w : Complex) : Prop where
  vanishing : w.squaredModulus.isZero = true →
    (z.crossed w).re.isZero = false ∧ (z.crossed w).im.isZero = false
  overflowing : w.squaredModulus.isFinite = false →
    (z.crossed w).re.isFinite = true ∧ (z.crossed w).im.isFinite = true

theorem isNan_div_iff {z w : Complex} (hz : z.re.isFinite = true ∧ z.im.isFinite = true)
    (hw : w.re.isFinite = true ∧ w.im.isFinite = true) :
    (z / w).re.isNan = false ∧ (z / w).im.isNan = false ↔ z.Divisible w := by
  have hsquare := isNan_squaredModulus hw.1 hw.2
  obtain ⟨hre, him⟩ := isNan_crossed hz hw
  rw [div_eq, isNan_div_eq_false_iff hre hsquare, isNan_div_eq_false_iff him hsquare]
  constructor
  · rintro ⟨⟨hrezero, hreinf⟩, ⟨himzero, himinf⟩⟩
    exact ⟨fun h => ⟨hrezero h, himzero h⟩, fun h => ⟨hreinf h, himinf h⟩⟩
  · rintro ⟨hvanishing, hoverflowing⟩
    exact ⟨⟨fun h => (hvanishing h).1, fun h => (hoverflowing h).1⟩,
      ⟨fun h => (hvanishing h).2, fun h => (hoverflowing h).2⟩⟩

/-- A squared modulus that neither vanishes nor overflows suits every dividend, and any other one
does not suit the divisor itself. -/
theorem forall_divisible_iff {w : Complex} (hw : w.re.isFinite = true ∧ w.im.isFinite = true) :
    (∀ z : Complex, z.re.isFinite = true ∧ z.im.isFinite = true → z.Divisible w) ↔
      w.squaredModulus.isZero = false ∧ w.squaredModulus.isFinite = true := by
  constructor
  · intro h
    -- Crossed with itself the divisor has its squared modulus as real part.
    obtain ⟨hvanishing, hoverflowing⟩ := h w hw
    rw [crossed_self_re] at hvanishing hoverflowing
    constructor
    · cases hzero : w.squaredModulus.isZero with
      | false => rfl
      | true => exact hzero.symm.trans (hvanishing hzero).1
    · cases hfinite : w.squaredModulus.isFinite with
      | true => rfl
      | false => exact hfinite.symm.trans (hoverflowing hfinite).1
  · rintro ⟨hzero, hfinite⟩ z -
    refine ⟨fun h => ?_, fun h => ?_⟩
    · rw [hzero] at h
      cases h
    · rw [hfinite] at h
      cases h

/-- The magnitude 2^511, up to which two squares and their sum are finite. -/
def squareLimit : Binary64 := power 1534 (by omega)

/-- The magnitude 2^-537, whose square is the least number. -/
def squareLeast : Binary64 := power 486 (by omega)

/-- No part is so large that its square overflows, and one is not so small that its square
vanishes. -/
structure Moderate (w : Complex) : Prop where
  re_le : w.re.abs.atMost squareLimit = true
  im_le : w.im.abs.atMost squareLimit = true
  le : squareLeast.atMost w.re.abs = true ∨ squareLeast.atMost w.im.abs = true

theorem abs_atMost_squareLimit {s : Bool} {u : Nat} {hu : Storable u} :
    (Binary64.finite s u hu).abs.atMost squareLimit = true ↔ u ≤ 2 ^ 1585 := by
  have hunits : fieldUnits 1534 0 = 2 ^ 1585 := by decide +kernel
  rw [← hunits]
  exact atMost_finite.trans Int.ofNat_le

theorem squareLeast_atMost_abs {s : Bool} {u : Nat} {hu : Storable u} :
    squareLeast.atMost (Binary64.finite s u hu).abs = true ↔ 2 ^ 537 ≤ u := by
  have hunits : fieldUnits 486 0 = 2 ^ 537 := by decide +kernel
  rw [← hunits]
  exact atMost_finite.trans Int.ofNat_le

theorem isZero_mul_self {s : Bool} {u k : Nat} {hu : Storable u} (hk : unitsPerOne ≤ k * k)
    (h : k ≤ u) : (Binary64.finite s u hu * .finite s u hu).isZero = false := by
  have hsquare : unitsPerOne ≤ u * u := Nat.le_trans hk (Nat.mul_self_le_mul_self h)
  have hpos := unitsPerOne_pos
  rw [mul_self_finite, Bool.eq_false_iff, ne_eq, isZero_ofRatio hpos]
  generalize u * u = n at hsquare
  generalize unitsPerOne = d at hsquare hpos
  omega

theorem isFinite_squaredModulus {s t : Bool} {m n k l : Nat} {hm : Storable m} {hn : Storable n}
    (hk : k * k ≤ l * unitsPerOne) (hl : Storable l) (hdouble : Storable (2 * l)) (hmk : m ≤ k)
    (hnk : n ≤ k) : (squaredModulus ⟨.finite s m hm, .finite t n hn⟩).isFinite = true := by
  have hmm : m * m ≤ l * unitsPerOne := Nat.le_trans (Nat.mul_self_le_mul_self hmk) hk
  have hnn : n * n ≤ l * unitsPerOne := Nat.le_trans (Nat.mul_self_le_mul_self hnk) hk
  have hsquare : Between 0 l (Binary64.finite t n hn * .finite t n hn) := by
    rw [mul_self_finite]
    exact between_ofRatio rfl storable_zero.fits hl unitsPerOne_pos (by omega) hnn
  refine (hsquare.mulAdd_self storable_zero.fits hdouble (by omega) ?_).isFinite
  calc m * m + l * unitsPerOne ≤ l * unitsPerOne + l * unitsPerOne := Nat.add_le_add_right hmm _
    _ = 2 * l * unitsPerOne := by rw [Nat.mul_assoc, Nat.two_mul]

theorem Moderate.squaredModulus {w : Complex} (hw : w.re.isFinite = true ∧ w.im.isFinite = true)
    (h : w.Moderate) : w.squaredModulus.isZero = false ∧ w.squaredModulus.isFinite = true := by
  obtain ⟨re, im⟩ := w
  obtain ⟨s, m, hm, rfl⟩ := exists_finite hw.1
  obtain ⟨t, n, hn, rfl⟩ := exists_finite hw.2
  obtain ⟨hre, him, hle⟩ := h
  refine ⟨Bool.eq_false_iff.2 fun hzero => ?_, ?_⟩
  · obtain ⟨hmm, hnn⟩ := (isZero_squaredModulus hw.1 hw.2).1 hzero
    have hleast : unitsPerOne ≤ 2 ^ 537 * 2 ^ 537 := by decide +kernel
    rcases hle with hle | hle
    · rw [isZero_mul_self hleast (squareLeast_atMost_abs.1 hle)] at hmm
      cases hmm
    · rw [isZero_mul_self hleast (squareLeast_atMost_abs.1 hle)] at hnn
      cases hnn
  · have hlimit : 2 ^ 1585 * 2 ^ 1585 ≤ 2 ^ 2096 * unitsPerOne := by decide +kernel
    exact isFinite_squaredModulus hlimit (by decide +kernel) (by decide +kernel)
      (abs_atMost_squareLimit.1 hre) (abs_atMost_squareLimit.1 him)

end Complex

namespace Value
open Binary64

theorem isFinite_toComplex {v : Value} (hv : v.isFinite = true) :
    v.toComplex.re.isFinite = true ∧ v.toComplex.im.isFinite = true := by
  cases v with
  | real x =>
    have hzero : (0 : Binary64).isFinite = true := by decide +kernel
    exact ⟨hv, hzero⟩
  | complex z => exact Bool.and_eq_true_iff.1 hv

theorem apply_divide_real {x y : Binary64} (h : ¬ (real y).Null) :
    apply .divide (real x) (real y) = .ok (real (x / y)) := by
  rw [null_real] at h
  rw [apply, applyReal, if_neg h]
  rfl

theorem apply_eq_applyComplex (op : Operator) {v w : Value}
    (h : v.isComplex = true ∨ w.isComplex = true) :
    apply op v w = (applyComplex op v.toComplex w.toComplex).map complex := by
  cases v with
  | real x =>
    cases w with
    | real y => simp [isComplex] at h
    | complex z => rfl
  | complex z => rfl

theorem apply_divide_complex {v w : Value} (h : v.isComplex = true ∨ w.isComplex = true)
    (hw : ¬ w.Null) : apply .divide v w = .ok (complex (v.toComplex / w.toComplex)) := by
  rw [null_iff_isZero] at hw
  rw [apply_eq_applyComplex .divide h, applyComplex, if_neg hw]
  rfl

theorem isNan_div_real {x y : Binary64} (hx : x.isFinite = true) (hy : y.isFinite = true)
    (h : ¬ (real y).Null) : (x / y).isNan = false := by
  rw [null_real] at h
  refine (isNan_div_eq_false_iff (isNan_of_isFinite hx) (isNan_of_isFinite hy)).2
    ⟨fun hzero => absurd hzero h, fun hinf => ?_⟩
  exact absurd (hy.symm.trans hinf) Bool.false_ne_true.symm

/-- A quotient of finite values is refused exactly if every part of the divisor is zero. Otherwise
it has no part that is nan exactly if both values are real or the complex ones are divisible. A
divisor divides every complex number so exactly if its squared modulus neither vanishes nor
overflows, as it does not for parts of moderate size. -/
theorem divide_gives_numbers_iff {v w : Value} (hv : v.isFinite = true) (hw : w.isFinite = true) :
    (apply .divide v w = .error .divisionByZero ↔ w.Null) ∧
      (¬ w.Null → ∃ u, apply .divide v w = .ok u ∧
        ((∀ x ∈ u.parts, x.isNan = false) ↔
          (v.isComplex = false ∧ w.isComplex = false) ∨ v.toComplex.Divisible w.toComplex)) ∧
      ((∀ z : Complex, z.re.isFinite = true ∧ z.im.isFinite = true → z.Divisible w.toComplex) ↔
        w.toComplex.squaredModulus.isZero = false ∧ w.toComplex.squaredModulus.isFinite = true) ∧
      (w.toComplex.Moderate → v.toComplex.Divisible w.toComplex) := by
  have hvparts := isFinite_toComplex hv
  have hwparts := isFinite_toComplex hw
  refine ⟨apply_divide_eq_error_iff v w, fun hnull => ?_, Complex.forall_divisible_iff hwparts,
    fun hmoderate => (Complex.forall_divisible_iff hwparts).2 (hmoderate.squaredModulus hwparts) _
      hvparts⟩
  by_cases hcomplex : v.isComplex = true ∨ w.isComplex = true
  · refine ⟨_, apply_divide_complex hcomplex hnull, ?_⟩
    have hreal : ¬ (v.isComplex = false ∧ w.isComplex = false) := by
      rintro ⟨hv0, hw0⟩
      simp [hv0, hw0] at hcomplex
    rw [← Complex.isNan_div_iff hvparts hwparts, or_iff_right hreal]
    simp [parts]
  · cases v with
    | complex z => exact absurd (.inl rfl) hcomplex
    | real x =>
      cases w with
      | complex z => exact absurd (.inr rfl) hcomplex
      | real y =>
        refine ⟨_, apply_divide_real hnull, iff_of_true ?_ (.inl ⟨rfl, rfl⟩)⟩
        simp [parts, isNan_div_real hv hw hnull]

theorem divide_by_squareLeast :
    let v := complex ⟨Complex.squareLimit, -Complex.squareLeast⟩
    let w := complex ⟨zero true, Complex.squareLeast⟩
    v.isFinite = true ∧ w.isFinite = true ∧ ¬ w.Null ∧
      ∃ u, apply .divide v w = .ok u ∧ ∀ x ∈ u.parts, x.isNan = false := by
  intro v w
  have hv : v.isFinite = true := by decide +kernel
  have hw : w.isFinite = true := by decide +kernel
  have hnull : ¬ w.Null := by
    rw [null_iff_isZero]
    decide +kernel
  have hmoderate : w.toComplex.Moderate :=
    ⟨by decide +kernel, by decide +kernel, .inr (by decide +kernel)⟩
  obtain ⟨-, hquotient, -, hdivisible⟩ := divide_gives_numbers_iff hv hw
  obtain ⟨u, hu, hparts⟩ := hquotient hnull
  exact ⟨hv, hw, hnull, u, hu, hparts.2 (.inr (hdivisible hmoderate))⟩

/-- A number divided by itself is no number if its square vanishes or overflows. -/
theorem not_divide_gives_numbers :
    let tiny := power 423 (by omega)
    let huge := power 1623 (by omega)
    apply .divide (complex ⟨tiny, 0⟩) (complex ⟨tiny, 0⟩) = .ok (complex ⟨nan, nan⟩) ∧
      apply .divide (complex ⟨huge, 0⟩) (complex ⟨huge, 0⟩) = .ok (complex ⟨nan, 0⟩) ∧
      ¬ ∀ v w : Value, v.isFinite = true → w.isFinite = true → ¬ w.Null →
        ∃ u, apply .divide v w = .ok u ∧ ∀ x ∈ u.parts, x.isNan = false := by
  intro tiny huge
  have hnull : ¬ (complex ⟨tiny, 0⟩).Null := by
    rw [null_iff_isZero]
    decide +kernel
  have htiny :
      apply .divide (complex ⟨tiny, 0⟩) (complex ⟨tiny, 0⟩) = .ok (complex ⟨nan, nan⟩) := by
    have hquotient : Complex.mk tiny 0 / ⟨tiny, 0⟩ = ⟨nan, nan⟩ := by decide +kernel
    rw [apply_divide_complex (.inl rfl) hnull, toComplex, hquotient]
  refine ⟨htiny, ?_, fun hclaim => ?_⟩
  · have hhuge : ¬ (complex ⟨huge, 0⟩).Null := by
      rw [null_iff_isZero]
      decide +kernel
    have hquotient : Complex.mk huge 0 / ⟨huge, 0⟩ = ⟨nan, 0⟩ := by decide +kernel
    rw [apply_divide_complex (.inl rfl) hhuge, toComplex, hquotient]
  · have hfinite : (complex ⟨tiny, 0⟩).isFinite = true := by decide +kernel
    obtain ⟨u, hu, hparts⟩ := hclaim _ _ hfinite hfinite hnull
    rw [htiny] at hu
    obtain rfl : complex ⟨nan, nan⟩ = u := Except.ok.inj hu
    exact absurd (hparts nan (by simp [parts])) (by decide)

end Value
end Reckon
