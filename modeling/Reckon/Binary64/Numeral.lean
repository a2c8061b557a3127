import Reckon.Binary64.Arith

/-!
Numerals: digits, or digits on both sides of a point, with a sign or none in front. A numeral of
any length denotes the number nearest its exact value. The text of a number has the fewest
significant digits that still denote it, and of those the nearest, always written in full without
an exponent: a finite number is a whole multiple of 10^-1074, so the search runs over grids of
powers of ten, from coarse to fine, and looks at the two points of each grid around the number.
Reading undoes writing, the sign of a zero included.
-/

set_option autoImplicit false

namespace Reckon
namespace Binary64

def ofDigits (negative : Bool) (whole fraction : List Char) : Binary64 :=
  ofRatio negative (Nat.ofDigitChars 10 (whole ++ fraction) 0 * unitsPerOne)
    (10 ^ fraction.length)

def ofUnsigned? (negative : Bool) (cs : List Char) : Option Binary64 :=
  let whole := cs.takeWhile Char.isDigit
  if whole.isEmpty then none
  else match cs.dropWhile Char.isDigit with
    | [] => some (ofDigits negative whole [])
    | point :: fraction =>
      if point = '.' ∧ fraction.isEmpty = false ∧ fraction.all Char.isDigit then
        some (ofDigits negative whole fraction)
      else none

def ofNumeral? : List Char → Option Binary64
  | [] => none
  | c :: cs =>
    if c = '-' then ofUnsigned? true cs
    else if c = '+' then ofUnsigned? false cs
    else ofUnsigned? false (c :: cs)

/-- A unit is this many times 10^-1074. -/
@[irreducible] def grainsPerUnit : Nat := 5 ^ 1074

def Denotes (units n : Nat) : Prop := nearest n grainsPerUnit = units

instance (units n : Nat) : Decidable (Denotes units n) :=
  inferInstanceAs (Decidable (nearest n grainsPerUnit = units))

/-- The multiple of `grid` that denotes the number, if one next to it does: the nearer of two,
the upper one in the middle. -/
def gridPoint? (units grid : Nat) : Option Nat :=
  let exact := units * grainsPerUnit
  let low := exact / grid
  let high := low + 1
  if Denotes units (low * grid) then
    if Denotes units (high * grid) ∧ grid ≤ 2 * (exact % grid) then some high else some low
  else if Denotes units (high * grid) then some high
  else none

theorem denotes_of_gridPoint? {units grid d : Nat} (h : gridPoint? units grid = some d) :
    Denotes units (d * grid) := by
  simp only [gridPoint?] at h
  split at h
  · split at h <;> simp_all
  · split at h <;> simp_all

/-- No fewer than the decimal digits of `n`: a binary digit is worth 0.30103 decimal ones. -/
def digitBound (n : Nat) : Nat := (n.log2 + 1) * 30103 / 100000 + 1

def powers (units : Nat) : List Nat :=
  (List.range' 1 (digitBound (units * grainsPerUnit))).reverse

def onGrid? (units power : Nat) : Option (Nat × Nat) :=
  (gridPoint? units (10 ^ power)).map fun digits => (digits, power)

/-- Digits and the power of ten they count, over 10^-1074; the exact digits always do. -/
def shortest (units : Nat) : Nat × Nat :=
  ((powers units).findSome? (onGrid? units)).getD (units * grainsPerUnit, 0)

/-- Writes `digits` times `10 ^ power` times 10^-1074, with a point where one is needed. -/
def positional (digits power : Nat) : List Char :=
  let ds := Nat.toDigits 10 digits
  if 1074 ≤ power then ds ++ List.replicate (power - 1074) '0'
  else
    let places := 1074 - power
    let padded := List.replicate (places + 1 - ds.length) '0' ++ ds
    let whole := padded.length - places
    padded.take whole ++ '.' :: padded.drop whole

def magnitudeChars (units : Nat) : List Char :=
  if units = 0 then ['0']
  else positional (shortest units).1 (shortest units).2

def chars : Binary64 → List Char
  | nan => ['N', 'a', 'N']
  | infinite negative => signChars negative ++ ['i', 'n', 'f']
  | finite negative units _ => signChars negative ++ magnitudeChars units
where
  signChars (negative : Bool) : List Char := if negative then ['-'] else []

def text (x : Binary64) : String := String.ofList x.chars

theorem grainsPerUnit_pos : 0 < grainsPerUnit := by
  unfold grainsPerUnit
  generalize 1074 = k
  exact Nat.pow_pos (by omega)

theorem unitsPerOne_pos : 0 < unitsPerOne := by
  unfold unitsPerOne
  generalize 1074 = k
  exact Nat.two_pow_pos k

theorem grainsPerUnit_mul_unitsPerOne : grainsPerUnit * unitsPerOne = 10 ^ 1074 := by
  unfold grainsPerUnit unitsPerOne
  generalize 1074 = k
  rw [← Nat.mul_pow]

theorem denotes_self {units : Nat} (h : Storable units) :
    Denotes units (units * grainsPerUnit) := by
  have := nearest_mul_right units 1 grainsPerUnit_pos
  rw [Nat.one_mul, nearest_one h] at this
  exact this

theorem denotes_shortest {units : Nat} (h : Storable units) :
    Denotes units ((shortest units).1 * 10 ^ (shortest units).2) := by
  unfold shortest
  cases hs : (powers units).findSome? (onGrid? units) with
  | none =>
    rw [Option.getD_none, Nat.pow_zero, Nat.mul_one]
    exact denotes_self h
  | some found =>
    obtain ⟨power, -, hp⟩ := List.exists_of_findSome?_eq_some hs
    obtain ⟨digits, hd, rfl⟩ := Option.map_eq_some_iff.1 hp
    exact denotes_of_gridPoint? hd

theorem ofRatio_of_denotes {units n : Nat} (negative : Bool) (h : Storable units)
    (hn : Denotes units n) :
    ofRatio negative (n * unitsPerOne) (10 ^ 1074) = .finite negative units h := by
  have key : nearest (n * unitsPerOne) (10 ^ 1074) = units := by
    rw [← grainsPerUnit_mul_unitsPerOne, nearest_mul_right _ _ unitsPerOne_pos]
    exact hn
  simp only [ofRatio, key, h.2, dite_true]

theorem takeWhile_digits {cs : List Char} (h : ∀ c ∈ cs, c.isDigit = true) (rest : List Char)
    (hr : ∀ c ∈ rest.head?, c.isDigit = false) :
    (cs ++ rest).takeWhile Char.isDigit = cs ∧ (cs ++ rest).dropWhile Char.isDigit = rest := by
  induction cs with
  | nil =>
    cases rest with
    | nil => simp
    | cons c rest => simp [hr c (by simp)]
  | cons c cs ih =>
    obtain ⟨h1, h2⟩ := ih fun d hd => h d (List.mem_cons_of_mem _ hd)
    have hc := h c List.mem_cons_self
    simp [hc, h1, h2]

theorem ofUnsigned?_whole {whole : List Char} (negative : Bool) (hne : whole ≠ [])
    (h : ∀ c ∈ whole, c.isDigit = true) :
    ofUnsigned? negative whole = some (ofDigits negative whole []) := by
  obtain ⟨h1, h2⟩ := takeWhile_digits h [] (by simp)
  rw [List.append_nil] at h1 h2
  simp [ofUnsigned?, h1, h2, hne]

theorem ofUnsigned?_point {whole fraction : List Char} (negative : Bool) (hw : whole ≠ [])
    (hf : fraction ≠ []) (h : ∀ c ∈ whole, c.isDigit = true)
    (hd : ∀ c ∈ fraction, c.isDigit = true) :
    ofUnsigned? negative (whole ++ '.' :: fraction) =
      some (ofDigits negative whole fraction) := by
  obtain ⟨h1, h2⟩ := takeWhile_digits h ('.' :: fraction) (by simp [Char.isDigit])
  simp only [ofUnsigned?, h1, h2]
  simp [hw, hf]
  exact hd

theorem ofRatio_mul_right (negative : Bool) (num den : Nat) {s : Nat} (h : 0 < s) :
    ofRatio negative (num * s) (den * s) = ofRatio negative num den := by
  simp only [ofRatio, nearest_mul_right _ _ h]

theorem ofRatio_shift (negative : Bool) (n : Nat) {places power total : Nat}
    (h : places + power = total) :
    ofRatio negative (n * 10 ^ power * unitsPerOne) (10 ^ total) =
      ofRatio negative (n * unitsPerOne) (10 ^ places) := by
  subst h
  rw [Nat.pow_add, Nat.mul_right_comm n]
  exact ofRatio_mul_right negative _ _ (Nat.pow_pos (by omega))

/-- Reading a text written in full gives the number nearest what was written. -/
theorem ofUnsigned?_positional (negative : Bool) (digits power : Nat) :
    ofUnsigned? negative (positional digits power) =
      some (ofRatio negative (digits * 10 ^ power * unitsPerOne) (10 ^ 1074)) := by
  have hds : ∀ c ∈ Nat.toDigits 10 digits, c.isDigit = true := fun c hc =>
    Nat.isDigit_of_mem_toDigits (by decide) (by decide) hc
  have hread : Nat.ofDigitChars 10 (Nat.toDigits 10 digits) 0 = digits :=
    Nat.ofDigitChars_toDigits (by decide) (by decide)
  have hzeros : ∀ n, ∀ c ∈ List.replicate n '0', c.isDigit = true := by
    intro n c hc
    rw [List.eq_of_mem_replicate hc]
    rfl
  simp only [positional]
  split
  · rename_i hp
    have hall : ∀ c ∈ Nat.toDigits 10 digits ++ List.replicate (power - 1074) '0',
        c.isDigit = true := by
      intro c hc
      rcases List.mem_append.1 hc with hc | hc
      · exact hds c hc
      · exact hzeros _ c hc
    rw [ofUnsigned?_whole negative (by simp [Nat.toDigits_ne_nil]) hall, ofDigits,
      List.append_nil, Nat.ofDigitChars_append, hread, Nat.ofDigitChars_replicate_zero,
      List.length_nil, Nat.mul_comm (10 ^ _) digits]
    have split {k : Nat} (hk : k ≤ power) : 10 ^ power = 10 ^ (power - k) * 10 ^ k := by
      rw [← Nat.pow_add, Nat.sub_add_cancel hk]
    rw [split hp, ← Nat.mul_assoc, ofRatio_shift negative (digits * 10 ^ (power - 1074))
      (Nat.zero_add 1074)]
  · rename_i hp
    generalize hpad : List.replicate (1074 - power + 1 - (Nat.toDigits 10 digits).length) '0' ++
      Nat.toDigits 10 digits = padded
    have hlen : 1074 - power + 1 ≤ padded.length := by
      rw [← hpad, List.length_append, List.length_replicate]
      omega
    have hall : ∀ c ∈ padded, c.isDigit = true := by
      intro c hc
      rw [← hpad] at hc
      rcases List.mem_append.1 hc with hc | hc
      · exact hzeros _ c hc
      · exact hds c hc
    have hvalue : Nat.ofDigitChars 10 padded 0 = digits := by
      rw [← hpad, Nat.ofDigitChars_append, Nat.ofDigitChars_replicate_zero, Nat.mul_zero, hread]
    have hfraction : (padded.drop (padded.length - (1074 - power))).length = 1074 - power := by
      rw [List.length_drop]
      omega
    rw [ofUnsigned?_point negative
        (List.ne_nil_of_length_pos (by rw [List.length_take]; omega))
        (List.ne_nil_of_length_pos (by rw [hfraction]; omega))
        (fun c hc => hall c (List.mem_of_mem_take hc))
        (fun c hc => hall c (List.mem_of_mem_drop hc)),
      ofDigits, List.take_append_drop, hvalue, hfraction,
      ofRatio_shift negative digits (Nat.sub_add_cancel (Nat.le_of_not_le hp))]

theorem ofUnsigned?_magnitudeChars (negative : Bool) {units : Nat} (h : Storable units) :
    ofUnsigned? negative (magnitudeChars units) = some (.finite negative units h) := by
  unfold magnitudeChars
  split
  · rename_i hz
    subst hz
    have hd : ∀ c ∈ ['0'], c.isDigit = true := fun c hc => by
      rw [List.mem_singleton.1 hc]
      rfl
    rw [ofUnsigned?_whole negative (by simp) hd]
    have : ofDigits negative ['0'] [] = ofUnits negative 0 := by
      simp [ofDigits, ofUnits, Nat.ofDigitChars]
    rw [this, ofUnits_of_storable negative h]
  · rw [ofUnsigned?_positional, ofRatio_of_denotes negative h (denotes_shortest h)]

theorem ofNumeral?_of_isDigit {c : Char} {cs : List Char} (h : c.isDigit = true) :
    ofNumeral? (c :: cs) = ofUnsigned? false (c :: cs) := by
  have hm : c ≠ '-' := fun e => by subst e; exact absurd h (by decide)
  have hp : c ≠ '+' := fun e => by subst e; exact absurd h (by decide)
  simp only [ofNumeral?, hm, hp, if_false]

theorem isDigit_of_ofUnsigned? {negative : Bool} {cs : List Char} {x : Binary64}
    (h : ofUnsigned? negative cs = some x) : ∃ c rest, cs = c :: rest ∧ c.isDigit = true := by
  cases cs with
  | nil => simp [ofUnsigned?] at h
  | cons c rest =>
    refine ⟨c, rest, rfl, ?_⟩
    cases hc : c.isDigit with
    | true => rfl
    | false => simp [ofUnsigned?, hc] at h

/-- Reading the text of a finite number gives the number back. -/
theorem ofNumeral?_chars (negative : Bool) {units : Nat} (h : Storable units) :
    ofNumeral? (chars (.finite negative units h)) = some (.finite negative units h) := by
  cases negative with
  | true => exact ofUnsigned?_magnitudeChars true h
  | false =>
    have read := ofUnsigned?_magnitudeChars false h
    obtain ⟨c, cs, hcs, hc⟩ := isDigit_of_ofUnsigned? read
    rw [hcs] at read
    simp only [chars, chars.signChars, hcs]
    exact (ofNumeral?_of_isDigit hc).trans read

end Binary64
end Reckon
