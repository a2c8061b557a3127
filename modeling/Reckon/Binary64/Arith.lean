import Reckon.Binary64.Basic

/-!
Rounding and arithmetic. An exact result is a ratio of natural numbers, counted in units; it goes
to the nearest count that 53 bits can hold, and halfway to the even one. A square root is found to
half a unit, and whatever it has beyond that counts as a quarter: no rounding can tell the two
apart, since the places where it changes its mind are whole halves. Every operation is computed
exactly and rounded once, and an exact sum of nothing is positive zero, unless everything added is
negative.
-/

set_option autoImplicit false

namespace Reckon

def roundHalfEven (num den : Nat) : Nat :=
  let q := num / den
  let r := num % den
  if 2 * r < den then q
  else if den < 2 * r then q + 1
  else q + q % 2

theorem le_roundHalfEven (num den : Nat) : num / den ≤ roundHalfEven num den := by
  simp only [roundHalfEven]
  split
  · exact Nat.le_refl _
  · split <;> omega

theorem roundHalfEven_le (num den : Nat) : roundHalfEven num den ≤ num / den + 1 := by
  simp only [roundHalfEven]
  split
  · omega
  · split <;> omega

theorem roundHalfEven_mul {n den : Nat} (h : 0 < den) : roundHalfEven (n * den) den = n := by
  simp [roundHalfEven, Nat.mul_div_cancel _ h, h]

/-- Rounds `num / den` to 53 significant bits, with no upper limit on the result. -/
def nearest (num den : Nat) : Nat :=
  let place := lastPlace (num / den)
  roundHalfEven num (den * 2 ^ place) * 2 ^ place

theorem div_lastPlace_lt (n : Nat) : n / 2 ^ lastPlace n < 2 ^ 53 := by
  rw [Nat.div_lt_iff_lt_mul (Nat.two_pow_pos _), ← Nat.pow_add]
  exact Nat.lt_of_lt_of_le Nat.lt_log2_self
    (Nat.pow_le_pow_right (by omega) (by unfold lastPlace; omega))

theorem nearest_mod_lastPlace (num den : Nat) :
    nearest num den % 2 ^ lastPlace (nearest num den) = 0 := by
  unfold nearest
  apply mul_pow_mod_lastPlace
  have h := roundHalfEven_le num (den * 2 ^ lastPlace (num / den))
  have := div_lastPlace_lt (num / den)
  rw [← Nat.div_div_eq_div_mul] at h
  omega

theorem nearest_one {n : Nat} (h : Storable n) : nearest n 1 = n := by
  have hd : 2 ^ lastPlace n ∣ n := Nat.dvd_of_mod_eq_zero h.1
  have := @roundHalfEven_mul (n / 2 ^ lastPlace n) _ (Nat.two_pow_pos (lastPlace n))
  simp only [nearest, Nat.div_one, Nat.one_mul]
  rw [Nat.div_mul_cancel hd] at this
  rw [this, Nat.div_mul_cancel hd]

theorem roundHalfEven_mul_right (num den : Nat) {s : Nat} (h : 0 < s) :
    roundHalfEven (num * s) (den * s) = roundHalfEven num den := by
  have lt {a b : Nat} : a * s < b * s ↔ a < b := Nat.mul_lt_mul_right h
  simp only [roundHalfEven, Nat.mul_div_mul_right _ _ h, Nat.mul_mod_mul_right,
    ← Nat.mul_assoc 2, lt]

theorem nearest_mul_right (num den : Nat) {s : Nat} (h : 0 < s) :
    nearest (num * s) (den * s) = nearest num den := by
  simp only [nearest, Nat.mul_div_mul_right _ _ h]
  rw [Nat.mul_right_comm den s, roundHalfEven_mul_right _ _ h]

/-- The largest natural number whose square is at most `n`, two bits of `n` at a time. -/
def floorRootUpTo : Nat → Nat → Nat
  | 0, _ => 0
  | pairs + 1, n =>
    let r := 2 * floorRootUpTo pairs (n / 4)
    if (r + 1) * (r + 1) ≤ n then r + 1 else r

theorem floorRootUpTo_bounds {pairs n : Nat} (h : n < 4 ^ pairs) :
    floorRootUpTo pairs n * floorRootUpTo pairs n ≤ n ∧
      n < (floorRootUpTo pairs n + 1) * (floorRootUpTo pairs n + 1) := by
  induction pairs generalizing n with
  | zero =>
    have : n = 0 := by simpa using h
    simp [this, floorRootUpTo]
  | succ pairs ih =>
    have quarter : n / 4 < 4 ^ pairs := by
      rw [Nat.pow_succ] at h
      omega
    obtain ⟨lo, hi⟩ := ih quarter
    simp only [floorRootUpTo]
    generalize floorRootUpTo pairs (n / 4) = r at lo hi
    have double : 2 * r * (2 * r) = 4 * (r * r) := Nat.mul_mul_mul_comm 2 r 2 r
    simp only [Nat.add_mul, Nat.mul_add, Nat.one_mul, Nat.mul_one, double] at hi ⊢
    split <;> simp only [Nat.add_mul, Nat.mul_add, Nat.one_mul, Nat.mul_one, double] <;> omega

def floorRoot (n : Nat) : Nat := floorRootUpTo (n.log2 / 2 + 1) n

theorem lt_four_pow (n : Nat) : n < 4 ^ (n.log2 / 2 + 1) := by
  have : (4 : Nat) ^ (n.log2 / 2 + 1) = 2 ^ (2 * (n.log2 / 2 + 1)) := by rw [Nat.pow_mul]
  rw [this]
  exact Nat.lt_of_lt_of_le Nat.lt_log2_self (Nat.pow_le_pow_right (by omega) (by omega))

theorem floorRoot_mul_self_le (n : Nat) : floorRoot n * floorRoot n ≤ n :=
  (floorRootUpTo_bounds (lt_four_pow n)).1

theorem lt_succ_floorRoot_mul_self (n : Nat) : n < (floorRoot n + 1) * (floorRoot n + 1) :=
  (floorRootUpTo_bounds (lt_four_pow n)).2

namespace Binary64

/-- The number nearest `num / den` units; too large a magnitude becomes infinite. -/
def ofRatio (negative : Bool) (num den : Nat) : Binary64 :=
  if h : nearest num den < unitLimit then
    .finite negative (nearest num den) ⟨nearest_mod_lastPlace num den, h⟩
  else .infinite negative

def ofUnits (negative : Bool) (units : Nat) : Binary64 := ofRatio negative units 1

theorem ofUnits_of_storable (negative : Bool) {n : Nat} (h : Storable n) :
    ofUnits negative n = .finite negative n h := by
  simp only [ofUnits, ofRatio, nearest_one h, h.2, dite_true]

/-- The number nearest the square root of `n`, in units. The root is known to half a unit
and its excess is replaced by a quarter. -/
def ofRoot (n : Nat) : Binary64 :=
  let r := floorRoot (4 * n)
  ofRatio false (if r * r = 4 * n then 2 * r else 2 * r + 1) 4

/-- The number nearest `total / den` units, a total of nothing taking the given sign. -/
def ofTotal (zeroSign : Bool) (total : Int) (den : Nat) : Binary64 :=
  if total = 0 then zero zeroSign else ofRatio (decide (total < 0)) total.natAbs den

def ofNat (n : Nat) : Binary64 := ofUnits false (n * unitsPerOne)

instance (n : Nat) : OfNat Binary64 n := ⟨ofNat n⟩

theorem ofNat_zero : ofNat 0 = zero false := by
  rw [ofNat, Nat.zero_mul]
  exact ofUnits_of_storable false storable_zero

def add : Binary64 → Binary64 → Binary64
  | nan, _ | _, nan => nan
  | infinite s, infinite t => if s = t then infinite s else nan
  | infinite s, finite _ _ _ => infinite s
  | finite _ _ _, infinite t => infinite t
  | finite s m _, finite t n _ => ofTotal (s && t) (signed s m + signed t n) 1

instance : Add Binary64 := ⟨add⟩

instance : Sub Binary64 := ⟨fun x y => x + -y⟩

def mul : Binary64 → Binary64 → Binary64
  | nan, _ | _, nan => nan
  | infinite s, infinite t => infinite (s ^^ t)
  | infinite s, finite t n _ | finite s n _, infinite t =>
    if n = 0 then nan else infinite (s ^^ t)
  | finite s m _, finite t n _ => ofRatio (s ^^ t) (m * n) unitsPerOne

instance : Mul Binary64 := ⟨mul⟩

def div : Binary64 → Binary64 → Binary64
  | nan, _ | _, nan => nan
  | infinite _, infinite _ => nan
  | infinite s, finite t _ _ => infinite (s ^^ t)
  | finite s _ _, infinite t => zero (s ^^ t)
  | finite s m _, finite t n _ =>
    if n = 0 then if m = 0 then nan else infinite (s ^^ t)
    else ofRatio (s ^^ t) (m * unitsPerOne) n

instance : Div Binary64 := ⟨div⟩

def mulAdd : Binary64 → Binary64 → Binary64 → Binary64
  | finite s m _, finite t n _, finite u k _ =>
    ofTotal ((s ^^ t) && u) (signed (s ^^ t) (m * n) + signed u (k * unitsPerOne)) unitsPerOne
  | finite _ _ _, finite _ _ _, z => z
  | x, y, z => x * y + z

def sqrt : Binary64 → Binary64
  | nan | infinite true => nan
  | infinite false => infinite false
  | finite s n h =>
    if n = 0 then finite s n h
    else if s then nan
    else ofRoot (n * unitsPerOne)

/-- The length of the hypotenuse; an infinite leg decides, whatever the other one is. -/
def hypot : Binary64 → Binary64 → Binary64
  | infinite _, _ | _, infinite _ => infinite false
  | nan, _ | _, nan => nan
  | finite _ m _, finite _ n _ => ofRoot (m * m + n * n)

def ofFields (exponent fraction : Nat) (he : exponent < 2047) (hf : fraction < 2 ^ 52) :
    Binary64 :=
  .finite false (fieldUnits exponent fraction) (storable_fieldUnits he hf)

def halfLargest : Binary64 := ofFields 2045 (2 ^ 52 - 1) (by omega) (by omega)

def twiceLeastNormal : Binary64 := ofFields 2 0 (by omega) (by omega)

/-- The number halfway, arranged so that no sum on the way overflows. -/
def midpoint (x y : Binary64) : Binary64 :=
  if x.abs.atMost halfLargest && y.abs.atMost halfLargest then (x + y) / 2
  else if x.abs.below twiceLeastNormal then x + y / 2
  else if y.abs.below twiceLeastNormal then x / 2 + y
  else x / 2 + y / 2

end Binary64
end Reckon
