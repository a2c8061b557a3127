import Reckon.Text
import Reckon.Token.Scanner

/-! The words of a line: its tokens without the mark of the end, which no text spells. Blank
space has no words. -/

set_option autoImplicit false

namespace Reckon
namespace Scan

def words (line : List Char) : List Spanned := (items line).filterMap Item.token?

theorem tokens_eq (line : List Char) :
    tokens line = words line ++ [⟨.endOfInput, line.length, line.length⟩] := rfl

end Scan

theorem Lexeme.word_ne_endOfInput (text : String) : word text ≠ .endOfInput := by
  unfold word
  split
  · simp
  · split <;> simp

theorem Lexeme.mark?_ne_endOfInput (c : Char) : mark? c ≠ some .endOfInput := by
  unfold mark?
  split
  · simp
  · split
    · simp
    · split
      · simp
      · simp [Option.map_eq_some_iff]

theorem Token.first?_ne_endOfInput {cs : List Char} {t : Token} {n : Nat}
    (h : first? cs = some (t, n)) : t ≠ .endOfInput := by
  unfold first? at h
  split at h
  · obtain ⟨z, _, hz⟩ := Option.map_eq_some_iff.1 h
    cases hz
    simp
  · split at h
    · obtain ⟨x, _, hx⟩ := Option.map_eq_some_iff.1 h
      cases hx
      simp
    · split at h
      · cases h
        exact Lexeme.word_ne_endOfInput _
      · obtain ⟨u, hu, ht⟩ := Option.map_eq_some_iff.1 h
        cases ht
        obtain ⟨c, _, hc⟩ := Option.bind_eq_some_iff.1 hu
        intro he
        exact Lexeme.mark?_ne_endOfInput c (he ▸ hc)

theorem Text.toNat_of_isBlank {c : Char} (h : isBlank c = true) :
    c.toNat ≤ 32 ∨ 133 ≤ c.toNat := by
  simp [isBlank, blankRanges] at h
  omega

theorem Text.ne_of_isBlank {c d : Char} (h : isBlank c = true) (hd : isBlank d = false) :
    c ≠ d := by
  intro he
  simp [he, hd] at h

theorem Text.isDigit_of_isBlank {c : Char} (h : isBlank c = true) : c.isDigit = false := by
  have hc := toNat_of_isBlank h
  simp [Char.isDigit, UInt32.le_iff_toNat_le]
  omega

theorem Text.isAlpha_of_isBlank {c : Char} (h : isBlank c = true) : c.isAlpha = false := by
  have hc := toNat_of_isBlank h
  have hupper : ¬ (65 ≤ c.val ∧ c.val ≤ 90) := by
    simp [UInt32.le_iff_toNat_le]
    omega
  have hlower : ¬ (97 ≤ c.val ∧ c.val ≤ 122) := by
    simp [UInt32.le_iff_toNat_le]
    omega
  show (decide (65 ≤ c.val ∧ c.val ≤ 90) || (decide (97 ≤ c.val) && decide (c.val ≤ 122))) = false
  rw [decide_eq_false hupper, ← Bool.decide_and, decide_eq_false hlower]
  rfl

theorem Lexeme.isNameStart_of_isBlank {c : Char} (h : Text.isBlank c = true) :
    isNameStart c = false := by
  have hu : c ≠ '_' := Text.ne_of_isBlank h (by decide)
  simp [isNameStart, hu, Text.isAlpha_of_isBlank h]

theorem Lexeme.unsignedComplex?_of_numeral? {cs : List Char} (h : numeral? cs = none) :
    unsignedComplex? cs = none := by
  unfold unsignedComplex?
  rw [h]
  rfl

theorem Lexeme.mark?_of_isBlank {c : Char} (h : Text.isBlank c = true) : mark? c = none := by
  have hc : ∀ d, Text.isBlank d = false → c ≠ d := fun d hd => Text.ne_of_isBlank h hd
  have hop : ∀ op : Operator, c ≠ op.symbol := by
    intro op
    exact hc _ (by cases op <;> decide)
  have hnone : Operator.ofSymbol? c = none := by
    simp [Operator.ofSymbol?, List.find?_eq_none, Ne.symm (hop _)]
  simp [mark?, hc '(' (by decide), hc ')' (by decide), hc '=' (by decide), hnone]

theorem Token.first?_of_isBlank {c : Char} (h : Text.isBlank c = true) (cs : List Char) :
    first? (c :: cs) = none := by
  have hd := Text.isDigit_of_isBlank h
  have hne : c ≠ '-' := Text.ne_of_isBlank h (by decide)
  have hnum : Lexeme.numeral? (c :: cs) = none := by simp [Lexeme.numeral?, Lexeme.digitCount, hd]
  have hcomplex : Lexeme.complex? (c :: cs) = none := by
    simp [Lexeme.complex?, hne, Lexeme.unsignedComplex?_of_numeral? hnum]
  simp [first?, hcomplex, hnum, Lexeme.name?, Lexeme.isNameStart_of_isBlank h,
    Lexeme.mark?_of_isBlank h]

theorem Scan.itemsFrom_ne_endOfInput (column covered : Nat) (cs : List Char) {t : Spanned}
    (h : .token t ∈ itemsFrom column covered cs) : t.token ≠ .endOfInput := by
  induction cs generalizing column covered with
  | nil => simp [itemsFrom] at h
  | cons c cs ih =>
    cases covered with
    | succ covered => exact ih _ _ (by simpa [itemsFrom] using h)
    | zero =>
      rw [itemsFrom] at h
      split at h
      · exact ih _ _ h
      · split at h
        · rename_i u n hu
          rcases List.mem_cons.1 h with h | h
          · cases h
            exact Token.first?_ne_endOfInput hu
          · exact ih _ _ h
        · exact ih _ _ (by simpa using h)

theorem Scan.words_ne_endOfInput (line : List Char) {t : Spanned} (h : t ∈ words line) :
    t.token ≠ .endOfInput := by
  obtain ⟨item, hi, ht⟩ := List.mem_filterMap.1 h
  cases item with
  | token u =>
    cases ht
    exact itemsFrom_ne_endOfInput 0 0 line hi
  | unknown u => cases ht

theorem Scan.itemsFrom_of_isBlank (column : Nat) (cs : List Char)
    (h : ∀ c ∈ cs, Text.isBlank c = true) :
    (itemsFrom column 0 cs).filterMap Item.token? = [] := by
  induction cs generalizing column with
  | nil => rfl
  | cons c cs ih =>
    have hc := h c (by simp)
    have hcs := ih (column + 1) (fun d hd => h d (by simp [hd]))
    rw [itemsFrom, Token.first?_of_isBlank hc]
    split
    · exact hcs
    · simpa [Item.token?] using hcs

theorem Scan.words_of_isBlank {line : List Char} (h : line.all Text.isBlank = true) :
    words line = [] := itemsFrom_of_isBlank 0 line (List.all_eq_true.1 h)

end Reckon
