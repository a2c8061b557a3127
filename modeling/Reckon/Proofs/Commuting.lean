import Reckon.Proofs.Quotients
import Reckon.Proofs.RealAxis

/-! Operands in either order. A sum does not depend on the order of its terms, and the real part of
a product not on the order of its factors. The imaginary part adds two crossed products and rounds
one of them first; with the factors swapped it rounds the other one first. The two ways differ by
what the roundings take away, so they agree if both take away the same or if there is nothing to
add. -/

set_option autoImplicit false

namespace Reckon

theorem two_mul_roundHalfEven (num : Nat) {den : Nat} (h : 0 < den) :
    2 * num ≤ 2 * (roundHalfEven num den * den) + den ∧
      2 * (roundHalfEven num den * den) ≤ 2 * num + den := by
  have hdiv : num / den * den + num % den = num := Nat.div_add_mod' num den
  have hmod : num % den < den := Nat.mod_lt num h
  have hparity : num / den % 2 = 0 ∨ num / den % 2 = 1 := Nat.mod_two_eq_zero_or_one _
  simp only [roundHalfEven]
  split
  · omega
  · split
    · rw [Nat.add_mul]
      omega
    · rcases hparity with heven | hodd
      · rw [heven, Nat.add_zero]
        omega
      · rw [hodd, Nat.add_mul]
        omega

namespace Binary64

protected theorem add_comm (x y : Binary64) : x + y = y + x := by
  show add x y = add y x
  cases x with
  | nan => cases y <;> rfl
  | infinite s =>
    cases y with
    | infinite t => cases s <;> cases t <;> rfl
    | _ => rfl
  | finite s m hm =>
    cases y with
    | finite t n hn => simp only [add, Bool.and_comm s, Int.add_comm (signed s m)]
    | _ => rfl

protected theorem mul_comm (x y : Binary64) : x * y = y * x := by
  show mul x y = mul y x
  cases x with
  | nan => cases y <;> rfl
  | infinite s =>
    cases y with
    | nan => rfl
    | _ => simp only [mul, Bool.xor_comm s]
  | finite s m hm =>
    cases y with
    | nan => rfl
    | _ => simp only [mul, Bool.xor_comm s, Nat.mul_comm m]

theorem mulAdd_comm (x y z : Binary64) : mulAdd x y z = mulAdd y x z := by
  have hmul := Binary64.mul_comm x y
  cases x with
  | finite s m hm =>
    cases y with
    | finite t n hn => cases z <;> simp only [mulAdd, Bool.xor_comm s, Nat.mul_comm m]
    | _ => simp only [mulAdd, hmul]
  | _ => cases y <;> simp only [mulAdd, hmul]

theorem same_iff_rank? {x y : Binary64} : x.same y = true ↔ x.rank? = y.rank? := beq_iff_eq

theorem same_symm {x y : Binary64} (h : x.same y = true) : y.same x = true :=
  same_iff_rank?.2 (same_iff_rank?.1 h).symm

theorem same_trans {x y z : Binary64} (hxy : x.same y = true) (hyz : y.same z = true) :
    x.same z = true :=
  same_iff_rank?.2 ((same_iff_rank?.1 hxy).trans (same_iff_rank?.1 hyz))

theorem equals_self {x : Binary64} (h : x.isNan = false) : x.equals x = true := by
  cases x with
  | nan => cases h
  | _ => simp [equals, compares, rank?]

theorem signed_not (s : Bool) (n : Nat) : signed (!s) n = -signed s n := by
  cases s <;> simp [signed]

theorem neg_signed_iff {s : Bool} {n : Nat} : -signed s n = signed s n ↔ n = 0 := by
  cases s <;> simp only [signed, Bool.false_eq_true, if_true, if_false] <;> omega

theorem neg_same_iff {x : Binary64} (h : x.isNan = false) :
    (-x).same x = true ↔ x.isZero = true := by
  rw [same_iff_rank?]
  cases x with
  | nan => cases h
  | infinite s =>
    have hrank : (-Binary64.infinite s).rank? = (Binary64.infinite s).rank? ↔
        signed (!s) unitLimit = signed s unitLimit := Option.some_inj
    have hpos : 0 < unitLimit := storable_zero.2
    rw [hrank, signed_not, neg_signed_iff]
    exact iff_of_false (Nat.ne_of_gt hpos) Bool.false_ne_true
  | finite s m hm =>
    have hrank : (-Binary64.finite s m hm).rank? = (Binary64.finite s m hm).rank? ↔
        signed (!s) m = signed s m := Option.some_inj
    rw [hrank, signed_not, neg_signed_iff]
    exact beq_iff_eq.symm

/-- A finite number in fractions of a unit, of which as many make a unit as units make one. -/
def fractions : Binary64 → Int
  | finite s m _ => signed s (m * unitsPerOne)
  | _ => 0

def exactProduct : Binary64 → Binary64 → Int
  | finite s m _, finite t n _ => signed (s ^^ t) (m * n)
  | _, _ => 0

/-- What a product loses when it is rounded, in fractions of a unit. -/
def lost (x y : Binary64) : Int := exactProduct x y - fractions (x * y)

/-- The distance of the numbers around a product, in fractions of a unit. -/
def spacing (x y : Binary64) : Nat :=
  2 ^ lastPlace ((exactProduct x y).natAbs / unitsPerOne) * unitsPerOne

theorem natAbs_signed (s : Bool) (n : Nat) : (signed s n).natAbs = n := by
  cases s <;> simp [signed]

/-- A product that does not overflow loses half of its last place at most. -/
theorem two_mul_lost_le {x y : Binary64} (hx : x.isFinite = true) (hy : y.isFinite = true)
    (h : (x * y).isFinite = true) : 2 * (lost x y).natAbs ≤ spacing x y := by
  obtain ⟨s, m, hm, rfl⟩ := exists_finite hx
  obtain ⟨t, n, hn, rfl⟩ := exists_finite hy
  have hmul : Binary64.finite s m hm * .finite t n hn = ofRatio (s ^^ t) (m * n) unitsPerOne := rfl
  have hexact : exactProduct (.finite s m hm) (.finite t n hn) = signed (s ^^ t) (m * n) := rfl
  have hfractions : fractions (ofRatio (s ^^ t) (m * n) unitsPerOne) =
      signed (s ^^ t) (nearest (m * n) unitsPerOne * unitsPerOne) := by
    rw [hmul] at h
    unfold ofRatio at h ⊢
    split
    · rfl
    · rename_i hlimit
      rw [dif_neg hlimit] at h
      cases h
  have hplace : 0 < unitsPerOne * 2 ^ lastPlace (m * n / unitsPerOne) :=
    Nat.mul_pos unitsPerOne_pos (Nat.two_pow_pos _)
  have hround := two_mul_roundHalfEven (m * n) hplace
  have hnearest : nearest (m * n) unitsPerOne * unitsPerOne =
      roundHalfEven (m * n) (unitsPerOne * 2 ^ lastPlace (m * n / unitsPerOne)) *
        (unitsPerOne * 2 ^ lastPlace (m * n / unitsPerOne)) := by
    rw [nearest, Nat.mul_assoc, Nat.mul_comm (2 ^ _)]
  rw [lost, spacing, hmul, hexact, hfractions, hnearest, natAbs_signed, Nat.mul_comm (2 ^ _)]
  cases s ^^ t <;> simp only [signed, Bool.false_eq_true, if_true, if_false] <;> omega

theorem mulAdd_eq_ofTotal {x y z : Binary64} (hx : x.isFinite = true) (hy : y.isFinite = true)
    (hz : z.isFinite = true) : ∃ zeroSign,
      mulAdd x y z = ofTotal zeroSign (exactProduct x y + fractions z) unitsPerOne := by
  obtain ⟨s, m, hm, rfl⟩ := exists_finite hx
  obtain ⟨t, n, hn, rfl⟩ := exists_finite hy
  obtain ⟨u, k, hk, rfl⟩ := exists_finite hz
  exact ⟨_, rfl⟩

theorem mulAdd_infinite {x y : Binary64} (hx : x.isFinite = true) (hy : y.isFinite = true)
    (s : Bool) : mulAdd x y (.infinite s) = .infinite s := by
  obtain ⟨t, m, hm, rfl⟩ := exists_finite hx
  obtain ⟨u, n, hn, rfl⟩ := exists_finite hy
  rfl

theorem ofTotal_same_ofTotal (s t : Bool) (total : Int) (den : Nat) :
    (ofTotal s total den).same (ofTotal t total den) = true := by
  by_cases htotal : total = 0
  · simp only [ofTotal, htotal, if_true]
    exact same_of_isZero rfl rfl
  · simp only [ofTotal, htotal, if_false, same_self]

theorem ofTotal_fractions_same {x : Binary64} (hx : x.isFinite = true) (zeroSign : Bool) :
    (ofTotal zeroSign x.fractions unitsPerOne).same x = true := by
  obtain ⟨s, m, hm, rfl⟩ := exists_finite hx
  have hrounded : ofRatio s (m * unitsPerOne) unitsPerOne = .finite s m hm := by
    rw [← Nat.one_mul unitsPerOne, ← Nat.mul_assoc, Nat.mul_one,
      ofRatio_mul_right s m 1 unitsPerOne_pos]
    exact ofUnits_of_storable s hm
  have hterm := same_ofTotal zeroSign s (m * unitsPerOne) unitsPerOne
  rw [hrounded] at hterm
  exact same_symm hterm

theorem isZero_mul {x y : Binary64} (hx : x.isFinite = true) (hy : y.isFinite = true)
    (h : x.isZero = true ∨ y.isZero = true) : (x * y).isZero = true ∧ exactProduct x y = 0 := by
  obtain ⟨s, m, hm, rfl⟩ := exists_finite hx
  obtain ⟨t, n, hn, rfl⟩ := exists_finite hy
  have hzero : m * n = 0 := by
    rcases h with h | h
    · rw [show m = 0 from eq_of_beq h, Nat.zero_mul]
    · rw [show n = 0 from eq_of_beq h, Nat.mul_zero]
  have hmul : Binary64.finite s m hm * .finite t n hn = ofRatio (s ^^ t) (m * n) unitsPerOne := rfl
  have hexact : exactProduct (.finite s m hm) (.finite t n hn) = signed (s ^^ t) (m * n) := rfl
  rw [hmul, hexact, hzero, ofRatio_zero]
  refine ⟨rfl, ?_⟩
  cases s ^^ t <;> rfl

theorem mulAdd_same_of_isZero {x y z : Binary64} (hx : x.isFinite = true) (hy : y.isFinite = true)
    (h : x.isZero = true ∨ y.isZero = true) (hz : z.isNan = false) :
    (mulAdd x y z).same z = true := by
  cases z with
  | nan => cases hz
  | infinite s => rw [mulAdd_infinite hx hy, same_self]
  | finite s m hm =>
    obtain ⟨zeroSign, htotal⟩ := mulAdd_eq_ofTotal (z := .finite s m hm) hx hy rfl
    rw [htotal, (isZero_mul hx hy h).2, Int.zero_add]
    exact ofTotal_fractions_same rfl zeroSign

theorem neg_ofRatio (s : Bool) (num den : Nat) : -ofRatio s num den = ofRatio (!s) num den := by
  unfold ofRatio
  split <;> rfl

theorem mul_neg_of_isFinite {x y : Binary64} (hx : x.isFinite = true) (hy : y.isFinite = true) :
    x * -y = -(x * y) := by
  obtain ⟨s, m, hm, rfl⟩ := exists_finite hx
  obtain ⟨t, n, hn, rfl⟩ := exists_finite hy
  show ofRatio (s ^^ !t) (m * n) unitsPerOne = -ofRatio (s ^^ t) (m * n) unitsPerOne
  rw [neg_ofRatio, Bool.xor_not]

theorem ofTotal_neg_same (s t : Bool) (total : Int) (den : Nat) :
    (ofTotal s (-total) den).same (-ofTotal t total den) = true := by
  by_cases htotal : total = 0
  · simp only [ofTotal, htotal, Int.neg_zero, if_true]
    exact same_of_isZero rfl rfl
  · have hsign : decide (-total < 0) = !decide (total < 0) := by
      rw [← decide_not]
      exact decide_eq_decide.2 (by omega)
    rw [ofTotal, ofTotal, if_neg htotal, if_neg (by omega), neg_ofRatio, hsign, Int.natAbs_neg]
    exact same_self _

theorem mulAdd_neg_same {x y : Binary64} (hx : x.isFinite = true) (hy : y.isFinite = true)
    (z : Binary64) : (mulAdd x (-y) (-z)).same (-mulAdd x y z) = true := by
  obtain ⟨s, m, hm, rfl⟩ := exists_finite hx
  obtain ⟨t, n, hn, rfl⟩ := exists_finite hy
  cases z with
  | nan => rfl
  | infinite u => exact same_self _
  | finite u k hk =>
    have hproduct : signed (s ^^ !t) (m * n) = -signed (s ^^ t) (m * n) := by
      rw [Bool.xor_not, signed_not]
    show (ofTotal _ (signed (s ^^ !t) (m * n) + signed (!u) (k * unitsPerOne)) unitsPerOne).same
      (-ofTotal _ (signed (s ^^ t) (m * n) + signed u (k * unitsPerOne)) unitsPerOne) = true
    rw [hproduct, signed_not, ← Int.neg_add]
    exact ofTotal_neg_same _ _ _ _

end Binary64

namespace Complex
open Binary64

def conj (z : Complex) : Complex := ⟨z.re, -z.im⟩

/-- The crossed products of two numbers add up to the same whichever of them is rounded first. -/
def CrossAlike (z w : Complex) : Prop :=
  (mulAdd z.re w.im (z.im * w.re)).same (mulAdd z.im w.re (z.re * w.im)) = true

structure CrossFinite (z w : Complex) : Prop where
  re_im : (z.re * w.im).isFinite = true
  im_re : (z.im * w.re).isFinite = true

def crossSum (z w : Complex) : Int := exactProduct z.re w.im + exactProduct z.im w.re

/-- In either order the imaginary part is the exact sum less what one of the crossed products loses,
rounded, and that is half of its last place at most. -/
structure LossRounded (z w : Complex) : Prop where
  mul_im : ∃ s, (z * w).im = ofTotal s (z.crossSum w - lost z.im w.re) unitsPerOne
  swapped_im : ∃ s, (w * z).im = ofTotal s (z.crossSum w - lost z.re w.im) unitsPerOne
  im_re_le : 2 * (lost z.im w.re).natAbs ≤ spacing z.im w.re
  re_im_le : 2 * (lost z.re w.im).natAbs ≤ spacing z.re w.im

@[simp] theorem add_re (z w : Complex) : (z + w).re = z.re + w.re := rfl

@[simp] theorem add_im (z w : Complex) : (z + w).im = z.im + w.im := rfl

protected theorem add_comm (z w : Complex) : z + w = w + z := by
  show Complex.mk (z.re + w.re) (z.im + w.im) = ⟨w.re + z.re, w.im + z.im⟩
  rw [Binary64.add_comm z.re, Binary64.add_comm z.im]

theorem mul_re_comm (z w : Complex) : (z * w).re = (w * z).re := by
  show mulAdd z.re w.re (-(z.im * w.im)) = mulAdd w.re z.re (-(w.im * z.im))
  rw [mulAdd_comm, Binary64.mul_comm z.im]

theorem mul_im_swap (z w : Complex) : (w * z).im = mulAdd z.im w.re (z.re * w.im) := by
  show mulAdd w.re z.im (w.im * z.re) = _
  rw [mulAdd_comm, Binary64.mul_comm w.im]

theorem mul_same_iff (z w : Complex) : (z * w).same (w * z) = true ↔ z.CrossAlike w := by
  rw [same_iff, mul_re_comm z w, mul_im_swap z w]
  exact and_iff_right (same_self _)

theorem CrossAlike.symm {z w : Complex} (h : z.CrossAlike w) : w.CrossAlike z := by
  rw [← mul_same_iff, same_iff] at h ⊢
  exact ⟨same_symm h.1, same_symm h.2⟩

section
variable {z w : Complex} (hz : z.re.isFinite = true ∧ z.im.isFinite = true)
  (hw : w.re.isFinite = true ∧ w.im.isFinite = true)
include hz hw

theorem isNan_mul : (z * w).re.isNan = false ∧ (z * w).im.isNan = false :=
  ⟨isNan_mulAdd hz.1 hw.1 ((isNan_neg _).trans (Binary64.isNan_mul hz.2 hw.2)),
    isNan_mulAdd hz.1 hw.2 (Binary64.isNan_mul hz.2 hw.1)⟩

theorem crossAlike_of_isZero (h : z.re.isZero = true ∨ w.im.isZero = true) : z.CrossAlike w := by
  obtain ⟨zeroSign, hproduct⟩ := (isZero_iff _).1 (isZero_mul hz.1 hw.2 h).1
  refine same_trans (mulAdd_same_of_isZero hz.1 hw.2 h (Binary64.isNan_mul hz.2 hw.1)) ?_
  rw [hproduct]
  exact same_mulAdd_zero hz.2 hw.1 zeroSign

theorem crossAlike_of_zero_part (h : z.re.isZero = true ∨ z.im.isZero = true ∨
    w.re.isZero = true ∨ w.im.isZero = true) : z.CrossAlike w := by
  rcases h with h | h | h | h
  · exact crossAlike_of_isZero hz hw (.inl h)
  · exact (crossAlike_of_isZero hw hz (.inr h)).symm
  · exact (crossAlike_of_isZero hw hz (.inl h)).symm
  · exact crossAlike_of_isZero hz hw (.inr h)

theorem CrossFinite.lossRounded (h : z.CrossFinite w) : z.LossRounded w := by
  obtain ⟨s, hfirst⟩ := mulAdd_eq_ofTotal hz.1 hw.2 h.im_re
  obtain ⟨t, hsecond⟩ := mulAdd_eq_ofTotal hz.2 hw.1 h.re_im
  have hsum : z.crossSum w - lost z.im w.re =
      exactProduct z.re w.im + fractions (z.im * w.re) := by
    unfold crossSum lost
    omega
  have hswapped : z.crossSum w - lost z.re w.im =
      exactProduct z.im w.re + fractions (z.re * w.im) := by
    unfold crossSum lost
    omega
  refine ⟨⟨s, ?_⟩, ⟨t, ?_⟩, two_mul_lost_le hz.2 hw.1 h.im_re, two_mul_lost_le hz.1 hw.2 h.re_im⟩
  · rw [hsum]
    exact hfirst
  · rw [mul_im_swap, hsecond, hswapped]

theorem CrossFinite.crossAlike (h : z.CrossFinite w) (hlost : lost z.re w.im = lost z.im w.re) :
    z.CrossAlike w := by
  obtain ⟨⟨s, hfirst⟩, ⟨t, hsecond⟩, -, -⟩ := h.lossRounded hz hw
  rw [← mul_same_iff, same_iff, hfirst, hsecond, hlost, mul_re_comm]
  exact ⟨same_self _, ofTotal_same_ofTotal _ _ _ _⟩

end

/-- A number and its conjugate may be swapped just if what the product of the two parts loses is too
little to be kept. -/
theorem crossAlike_conj_iff {z : Complex} (hz : z.re.isFinite = true ∧ z.im.isFinite = true) :
    z.CrossAlike z.conj ↔ (mulAdd z.re z.im (-(z.re * z.im))).isZero = true := by
  have hnan : (mulAdd z.re z.im (-(z.re * z.im))).isNan = false :=
    isNan_mulAdd hz.1 hz.2 ((isNan_neg _).trans (Binary64.isNan_mul hz.1 hz.2))
  -- The exact sum is zero, so either order rounds the one loss that there is, with opposite signs.
  have hfirst := mulAdd_neg_same hz.1 hz.2 (-(z.re * z.im))
  rw [Binary64.neg_neg] at hfirst
  show (mulAdd z.re (-z.im) (z.im * z.re)).same (mulAdd z.im z.re (z.re * -z.im)) = true ↔ _
  rw [mul_neg_of_isFinite hz.1 hz.2, mulAdd_comm z.im, Binary64.mul_comm z.im, ← neg_same_iff hnan]
  exact ⟨fun h => same_trans (same_symm hfirst) h, fun h => same_trans hfirst h⟩

end Complex

namespace Value
open Binary64

theorem both_real_or_complex (v w : Value) :
    (∃ x y, v = real x ∧ w = real y) ∨ v.isComplex = true ∨ w.isComplex = true := by
  cases v with
  | complex z => exact .inr (.inl rfl)
  | real x =>
    cases w with
    | complex z => exact .inr (.inr rfl)
    | real y => exact .inl ⟨x, y, rfl, rfl⟩

theorem isZero_im_of_real {v : Value} (h : v.isComplex = false) :
    v.toComplex.im.isZero = true := by
  cases v with
  | real x => exact isZero_zero
  | complex z => cases h

theorem apply_plus_comm (v w : Value) : apply .plus v w = apply .plus w v := by
  rcases both_real_or_complex v w with ⟨x, y, rfl, rfl⟩ | h
  · simp only [apply, applyReal, Binary64.add_comm x]
  · simp only [apply_eq_applyComplex .plus h, apply_eq_applyComplex .plus h.symm, applyComplex,
      Complex.add_comm v.toComplex]

theorem equals_self {v : Value} (h : ∀ x ∈ v.parts, x.isNan = false) : v.equals v = true := by
  cases v with
  | real x => exact Binary64.equals_self (h x (by simp [parts]))
  | complex z => exact Complex.same_iff.2 ⟨same_self _, same_self _⟩

/-- What an operation gives in either order: numbers of one kind with one real part. -/
structure Akin (u u' : Value) : Prop where
  kind : u.isComplex = u'.isComplex
  re : u.toComplex.re = u'.toComplex.re
  numbers : ∀ x ∈ u.parts ++ u'.parts, x.isNan = false

theorem akin_self {u : Value} (h : ∀ x ∈ u.parts, x.isNan = false) : u.Akin u :=
  ⟨rfl, rfl, fun x hx => h x (by simpa using hx)⟩

section Finite
variable {v w : Value} (hv : v.isFinite = true) (hw : w.isFinite = true)
include hv hw

theorem exists_apply_plus : ∃ u, apply .plus v w = .ok u ∧ ∀ x ∈ u.parts, x.isNan = false := by
  rcases both_real_or_complex v w with ⟨x, y, rfl, rfl⟩ | h
  · refine ⟨_, rfl, ?_⟩
    simpa [parts] using isNan_add hv hw
  · have hvparts := isFinite_toComplex hv
    have hwparts := isFinite_toComplex hw
    refine ⟨_, apply_eq_applyComplex .plus h, ?_⟩
    simpa [parts] using And.intro (isNan_add hvparts.1 hwparts.1) (isNan_add hvparts.2 hwparts.2)

theorem exists_apply_times : ∃ u u', apply .times v w = .ok u ∧ apply .times w v = .ok u' ∧
    u.Akin u' ∧ (u.equals u' = true ↔
      v.isComplex = false ∨ w.isComplex = false ∨ v.toComplex.CrossAlike w.toComplex) := by
  rcases both_real_or_complex v w with ⟨x, y, rfl, rfl⟩ | h
  · have hnan : ∀ p ∈ (real (x * y)).parts, p.isNan = false := by
      simpa [parts] using isNan_mul hv hw
    refine ⟨real (x * y), real (x * y), rfl, ?_, akin_self hnan, ?_⟩
    · simp only [apply, applyReal, Binary64.mul_comm y]
      rfl
    · exact iff_of_true (equals_self hnan) (.inl rfl)
  · have hvparts := isFinite_toComplex hv
    have hwparts := isFinite_toComplex hw
    refine ⟨_, _, apply_eq_applyComplex .times h, apply_eq_applyComplex .times h.symm,
      ⟨rfl, Complex.mul_re_comm _ _, ?_⟩, ?_⟩
    · simpa [parts, and_assoc] using And.intro (Complex.isNan_mul hvparts hwparts)
        (Complex.isNan_mul hwparts hvparts)
    · refine (Complex.mul_same_iff _ _).trans ⟨fun hcross => .inr (.inr hcross), ?_⟩
      rintro (hreal | hreal | hcross)
      · have hzero := isZero_im_of_real hreal
        exact Complex.crossAlike_of_zero_part hvparts hwparts (.inr (.inl hzero))
      · have hzero := isZero_im_of_real hreal
        exact Complex.crossAlike_of_zero_part hvparts hwparts (.inr (.inr (.inr hzero)))
      · exact hcross

end Finite

/-- A sum of finite values is the same in either order. A product of finite values is a number of
the same kind and with the same real part in either order, and it is the same just if a factor is
real or the crossed products are alike. They are so if a part of a factor is zero, or if they do not
overflow and lose the same when they are rounded; for a number and its conjugate they are so just if
what is lost rounds to zero. -/
theorem apply_in_both_orders {op : Operator} {v w : Value} (hop : op = .plus ∨ op = .times)
    (hv : v.isFinite = true) (hw : w.isFinite = true) :
    let z := v.toComplex
    let z' := w.toComplex
    (∃ u u', apply op v w = .ok u ∧ apply op w v = .ok u' ∧ u.Akin u' ∧
      (u.equals u' = true ↔
        op = .plus ∨ v.isComplex = false ∨ w.isComplex = false ∨ z.CrossAlike z')) ∧
      (z.re.isZero = true ∨ z.im.isZero = true ∨ z'.re.isZero = true ∨ z'.im.isZero = true →
        z.CrossAlike z') ∧
      (z.CrossFinite z' → z.LossRounded z' ∧
        (lost z.re z'.im = lost z.im z'.re → z.CrossAlike z')) ∧
      (z.CrossAlike z.conj ↔ (mulAdd z.re z.im (-(z.re * z.im))).isZero = true) := by
  intro z z'
  have hz := isFinite_toComplex hv
  have hz' := isFinite_toComplex hw
  refine ⟨?_, Complex.crossAlike_of_zero_part hz hz',
    fun h => ⟨h.lossRounded hz hz', h.crossAlike hz hz'⟩, Complex.crossAlike_conj_iff hz⟩
  rcases hop with rfl | rfl
  · obtain ⟨u, hu, hnan⟩ := exists_apply_plus hv hw
    exact ⟨u, u, hu, (apply_plus_comm w v).trans hu, akin_self hnan,
      iff_of_true (equals_self hnan) (.inl rfl)⟩
  · obtain ⟨u, u', hu, hu', hakin, hequals⟩ := exists_apply_times hv hw
    exact ⟨u, u', hu, hu', hakin, hequals.trans (or_iff_right (by decide)).symm⟩

/-- Two crossed products that are not exact and lose the same. -/
theorem times_in_both_orders_on_diagonal :
    let v := complex ⟨ofBits 0x3ff0000000000001, ofBits 0x3ff0000000000001⟩
    let w := complex ⟨ofBits 0x3ff0000000000003, ofBits 0x3ff0000000000003⟩
    v.isFinite = true ∧ w.isFinite = true ∧ v.toComplex.CrossFinite w.toComplex ∧
      lost v.toComplex.re w.toComplex.im ≠ 0 ∧ v.toComplex.LossRounded w.toComplex ∧
      ∃ u u', apply .times v w = .ok u ∧ apply .times w v = .ok u' ∧ u.equals u' = true := by
  intro v w
  have hv : v.isFinite = true := by decide +kernel
  have hw : w.isFinite = true := by decide +kernel
  have hfinite : v.toComplex.CrossFinite w.toComplex := ⟨by decide +kernel, by decide +kernel⟩
  obtain ⟨⟨u, u', hu, hu', -, hequals⟩, -, hrounded, -⟩ := apply_in_both_orders (.inr rfl) hv hw
  obtain ⟨hloss, halike⟩ := hrounded hfinite
  refine ⟨hv, hw, hfinite, by decide +kernel, hloss, u, u', hu, hu', hequals.2 ?_⟩
  exact .inr (.inr (.inr (halike (by decide +kernel))))

/-- Rounded in one order, the imaginary part of the first product is the least bit of a crossed
product, in the other order it is zero. The second one overflows in one order only. -/
theorem not_apply_times_comm :
    let v := complex ⟨ofBits 0x3ff0000000000001, 1⟩
    let w := complex ⟨ofBits 0xbff0000000000002, ofBits 0x3ff0000000000001⟩
    let huge := ofBits 0x7fe0000000000000
    apply .times v w = .ok (complex ⟨ofBits 0xc000000000000002, ofBits 0x3970000000000000⟩) ∧
      apply .times w v = .ok (complex ⟨ofBits 0xc000000000000002, 0⟩) ∧
      apply .times (complex ⟨huge, huge⟩) (complex ⟨2, -1⟩) =
        .ok (complex ⟨.infinite false, .infinite false⟩) ∧
      apply .times (complex ⟨2, -1⟩) (complex ⟨huge, huge⟩) =
        .ok (complex ⟨.infinite false, huge⟩) ∧
      ¬ ∀ (op : Operator) (v w : Value), op = .plus ∨ op = .times → v.isFinite = true →
        w.isFinite = true →
        ∃ u u', apply op v w = .ok u ∧ apply op w v = .ok u' ∧ u.equals u' = true := by
  intro v w huge
  have hproduct (z z' p : Complex) (h : z * z' = p) :
      apply .times (complex z) (complex z') = .ok (complex p) := by
    rw [← h]
    rfl
  have hfirst : apply .times v w =
      .ok (complex ⟨ofBits 0xc000000000000002, ofBits 0x3970000000000000⟩) :=
    hproduct _ _ _ (by decide +kernel)
  have hsecond : apply .times w v = .ok (complex ⟨ofBits 0xc000000000000002, 0⟩) :=
    hproduct _ _ _ (by decide +kernel)
  refine ⟨hfirst, hsecond, hproduct _ _ _ (by decide +kernel), hproduct _ _ _ (by decide +kernel),
    fun hclaim => ?_⟩
  obtain ⟨u, u', hu, hu', hequals⟩ :=
    hclaim .times v w (.inr rfl) (by decide +kernel) (by decide +kernel)
  rw [hfirst] at hu
  rw [hsecond] at hu'
  cases hu
  cases hu'
  exact absurd hequals (by decide +kernel)

end Value
end Reckon
