/-!
Double precision numbers with an exact reading. A finite number is a sign and a count of units,
one unit being 2^-1074, the distance between the numbers nearest zero. Every statement about
magnitudes is then a statement about natural numbers.
-/

set_option autoImplicit false

namespace Reckon

-- A power of natural numbers means the same whatever else is imported.
attribute [instance (2000), default_instance 20000] instPowNat

/-- Exponent of the spacing of numbers around `n` units: 53 significant bits are kept. -/
def lastPlace (n : Nat) : Nat := n.log2 - 52

/-- The count of units at which the finite numbers end, 2^1024 as a magnitude. -/
@[irreducible] def unitLimit : Nat := 2 ^ 2098

theorem pow_le_unitLimit {k : Nat} (h : k ≤ 2098) : 2 ^ k ≤ unitLimit := by
  unfold unitLimit
  generalize 2098 = n at *
  exact Nat.pow_le_pow_right (by omega) h

/-- Counts of units that are the magnitude of some finite number. -/
def Storable (n : Nat) : Prop := n % 2 ^ lastPlace n = 0 ∧ n < unitLimit

instance (n : Nat) : Decidable (Storable n) :=
  inferInstanceAs (Decidable (n % 2 ^ lastPlace n = 0 ∧ n < unitLimit))

theorem lastPlace_le {n e : Nat} (h : n < 2 ^ (53 + e)) : lastPlace n ≤ e := by
  unfold lastPlace
  by_cases hn : n = 0
  · simp [hn]
  · have := (Nat.log2_lt hn).2 h
    omega

/-- A significand of 53 bits, or the next power of two, fits at every place. -/
theorem mul_pow_mod_lastPlace {m e : Nat} (hm : m ≤ 2 ^ 53) :
    m * 2 ^ e % 2 ^ lastPlace (m * 2 ^ e) = 0 := by
  apply Nat.mod_eq_zero_of_dvd
  rcases Nat.lt_or_eq_of_le hm with h | h
  · have : m * 2 ^ e < 2 ^ (53 + e) := by
      rw [Nat.pow_add]; exact Nat.mul_lt_mul_of_pos_right h (Nat.two_pow_pos e)
    exact Nat.dvd_trans (Nat.pow_dvd_pow 2 (lastPlace_le this)) (Nat.dvd_mul_left _ _)
  · subst h
    rw [← Nat.pow_add]
    have : lastPlace (2 ^ (53 + e)) ≤ 1 + e :=
      lastPlace_le (Nat.pow_lt_pow_right (by omega) (by omega))
    exact Nat.pow_dvd_pow 2 (by omega)

theorem storable_zero : Storable 0 :=
  ⟨Nat.zero_mod _, Nat.lt_of_lt_of_le (Nat.two_pow_pos 0) (pow_le_unitLimit (Nat.zero_le _))⟩

/-- A double precision number; of the patterns that are no number one stands for all. -/
inductive Binary64 where
  | nan
  | infinite (negative : Bool)
  | finite (negative : Bool) (units : Nat) (storable : Storable units)
  deriving DecidableEq, Repr

namespace Binary64

def zero (negative : Bool) : Binary64 := .finite negative 0 storable_zero

instance : Inhabited Binary64 := ⟨zero false⟩

@[irreducible] def unitsPerOne : Nat := 2 ^ 1074

def fieldUnits (exponent fraction : Nat) : Nat :=
  if exponent = 0 then fraction else (2 ^ 52 + fraction) * 2 ^ (exponent - 1)

theorem storable_fieldUnits {exponent fraction : Nat} (he : exponent < 2047)
    (hf : fraction < 2 ^ 52) : Storable (fieldUnits exponent fraction) := by
  unfold fieldUnits
  split
  · have h := @mul_pow_mod_lastPlace fraction 0 (by omega)
    rw [Nat.pow_zero, Nat.mul_one] at h
    exact ⟨h, Nat.lt_of_lt_of_le hf (pow_le_unitLimit (by omega))⟩
  · refine ⟨mul_pow_mod_lastPlace (by omega), ?_⟩
    have : (2 ^ 52 + fraction) * 2 ^ (exponent - 1) < 2 ^ 53 * 2 ^ (exponent - 1) :=
      Nat.mul_lt_mul_of_pos_right (by omega) (Nat.two_pow_pos _)
    rw [← Nat.pow_add] at this
    exact Nat.lt_of_lt_of_le this (pow_le_unitLimit (by omega))

def ofBits (bits : UInt64) : Binary64 :=
  let negative := decide (2 ^ 63 ≤ bits.toNat)
  let exponent := bits.toNat / 2 ^ 52 % 2 ^ 11
  let fraction := bits.toNat % 2 ^ 52
  if h : exponent < 2047 then
    .finite negative (fieldUnits exponent fraction)
      (storable_fieldUnits h (Nat.mod_lt _ (Nat.two_pow_pos 52)))
  else if fraction = 0 then .infinite negative
  else .nan

def magnitudeBits (units : Nat) : Nat :=
  if units < 2 ^ 52 then units
  else lastPlace units * 2 ^ 52 + units / 2 ^ lastPlace units

def signBit (negative : Bool) : Nat := if negative then 2 ^ 63 else 0

def toBits : Binary64 → UInt64
  | nan => .ofNat (2047 * 2 ^ 52 + 2 ^ 51)
  | infinite negative => .ofNat (signBit negative + 2047 * 2 ^ 52)
  | finite negative units _ => .ofNat (signBit negative + magnitudeBits units)

def isNegative : Binary64 → Bool
  | nan => false
  | infinite negative | finite negative _ _ => negative

def isNan : Binary64 → Bool
  | nan => true
  | _ => false

def isFinite : Binary64 → Bool
  | finite _ _ _ => true
  | _ => false

def neg : Binary64 → Binary64
  | nan => nan
  | infinite negative => infinite (!negative)
  | finite negative units h => finite (!negative) units h

def abs : Binary64 → Binary64
  | nan => nan
  | infinite _ => infinite false
  | finite _ units h => finite false units h

def copySign : Binary64 → Binary64 → Binary64
  | nan, _ => nan
  | infinite _, y => infinite y.isNegative
  | finite _ units h, y => finite y.isNegative units h

instance : Neg Binary64 := ⟨neg⟩

@[simp] theorem neg_neg (x : Binary64) : - -x = x := by
  cases x <;> simp [Neg.neg, neg]

def signed (negative : Bool) (units : Nat) : Int := if negative then -units else units

/-- Place on the line in units; the infinities stand at the limits and nan nowhere. -/
def rank? : Binary64 → Option Int
  | nan => none
  | infinite negative => some (signed negative unitLimit)
  | finite negative units _ => some (signed negative units)

def compares (related : Int → Int → Bool) (x y : Binary64) : Bool :=
  match x.rank?, y.rank? with
  | some a, some b => related a b
  | _, _ => false

def equals : Binary64 → Binary64 → Bool := compares fun a b => a == b

def atMost : Binary64 → Binary64 → Bool := compares fun a b => decide (a ≤ b)

def below : Binary64 → Binary64 → Bool := compares fun a b => decide (a < b)

def isZero : Binary64 → Bool
  | finite _ units _ => units == 0
  | _ => false

/-- Equality that identifies the two zeros and nan with itself. -/
def same (x y : Binary64) : Bool := x.rank? == y.rank?

end Binary64
end Reckon
