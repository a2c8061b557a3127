import Reckon.Proofs.Draining
import Reckon.Proofs.Restore

/-! Tokens written out with blank space of any shape between them. Scanning the line gives back the
tokens, each at the place of its text, and no unknown character. -/

set_option autoImplicit false

namespace Reckon
namespace Token

/-- The text of a token, that of a complex number without its parentheses. -/
def written : Token → List Char
  | complex z => z.literalChars
  | t => t.chars

/-- The tokens that their text denotes: numbers are finite, a real one has no sign, and a name is
not reserved. -/
def Legible : Token → Prop
  | complex z => z.re.isFinite = true ∧ z.im.isFinite = true
  | number x => x.isFinite = true ∧ x.isNegative = false
  | name text => text.toList ∈ Pattern.name.matches' ∧ text ≠ "sqrt" ∧ text ≠ "print"
  | ignored | endOfInput => False
  | _ => True

instance : DecidablePred Legible
  | complex z => inferInstanceAs (Decidable (z.re.isFinite = true ∧ z.im.isFinite = true))
  | number x => inferInstanceAs (Decidable (x.isFinite = true ∧ x.isNegative = false))
  | name text => inferInstanceAs
      (Decidable (text.toList ∈ Pattern.name.matches' ∧ text ≠ "sqrt" ∧ text ≠ "print"))
  | ignored | endOfInput => inferInstanceAs (Decidable False)
  | sqrt | print | operator _ | leftParen | rightParen | assign => inferInstanceAs (Decidable True)

theorem Legible.spells {t : Token} (h : t.Legible) : Spells t.written t := by
  cases t with
  | complex z =>
    have hs := spells_spelling (t := .complex z)
      ⟨Binary64.isNan_of_isFinite h.1, Binary64.isNan_of_isFinite h.2⟩
    rwa [spelling_complex h.1 h.2] at hs
  | number x =>
    have hs := spells_spelling (t := .number x) ⟨Binary64.isNan_of_isFinite h.1, h.2⟩
    have hchars : x.chars = x.unsignedChars := by simp [Binary64.chars_of_isFinite h.1, h.2]
    rwa [spelling, ← hchars] at hs
  | name text => exact spells_spelling (t := .name text) h
  | ignored => exact h.elim
  | endOfInput => exact h.elim
  | sqrt => exact .sqrt
  | print => exact .print
  | operator op => exact .operator op
  | leftParen => exact .leftParen
  | rightParen => exact .rightParen
  | assign => exact .assign

end Token

namespace Scan

theorem itemsFrom_blank_append {gap : List Char} (h : ∀ c ∈ gap, c = ' ' ∨ c = '\t')
    (column : Nat) (cs : List Char) :
    itemsFrom column 0 (gap ++ cs) = itemsFrom (column + gap.length) 0 cs := by
  induction gap generalizing column with
  | nil => rfl
  | cons c gap ih =>
    obtain ⟨hc, hgap⟩ := List.forall_mem_cons.1 h
    rw [List.cons_append, itemsFrom_skip (isSkipped_iff.2 hc), ih hgap, List.length_cons]
    congr 1
    omega

end Scan

/-- Tokens in a row, each with the blank space that follows it. -/
structure Layout where
  before : List Char
  pieces : List (Token × List Char)
  legible : ∀ p ∈ pieces, p.1.Legible
  before_blank : ∀ c ∈ before, c = ' ' ∨ c = '\t'
  gaps_blank : ∀ p ∈ pieces, ∀ c ∈ p.2, c = ' ' ∨ c = '\t'
  /-- Only after the last token blank space may be missing. -/
  apart : ∀ p ∈ pieces.dropLast, p.2 ≠ []

namespace Layout

def text (pieces : List (Token × List Char)) : List Char :=
  pieces.flatMap fun p => p.1.written ++ p.2

def place (column : Nat) : List (Token × List Char) → List Spanned
  | [] => []
  | (t, gap) :: pieces =>
    ⟨t, column, column + t.written.length⟩ ::
      place (column + t.written.length + gap.length) pieces

def tokens (l : Layout) : List Token := l.pieces.map Prod.fst

def line (l : Layout) : List Char := l.before ++ text l.pieces

def words (l : Layout) : List Spanned := place l.before.length l.pieces

theorem token_place (column : Nat) (pieces : List (Token × List Char)) :
    (place column pieces).map Spanned.token = pieces.map Prod.fst := by
  induction pieces generalizing column with
  | nil => rfl
  | cons p pieces ih => simp [place, ih]

theorem text_place {pieces : List (Token × List Char)} (before : List Char) {w : Spanned}
    (h : w ∈ place before.length pieces) :
    ((before ++ text pieces).drop w.start).take (w.stop - w.start) = w.token.written := by
  induction pieces generalizing before with
  | nil => cases h
  | cons p pieces ih =>
    obtain ⟨t, gap⟩ := p
    have htext : text ((t, gap) :: pieces) = t.written ++ (gap ++ text pieces) := by simp [text]
    rcases List.mem_cons.1 h with rfl | h
    · rw [htext, List.drop_left, Nat.add_sub_cancel_left, List.take_left]
    · have hcolumn : before.length + t.written.length + gap.length =
          (before ++ t.written ++ gap).length := by simp only [List.length_append]
      have hunder := ih (before ++ t.written ++ gap) (hcolumn ▸ h)
      rwa [List.append_assoc, List.append_assoc, ← htext] at hunder

theorem itemsFrom_text {pieces : List (Token × List Char)} (hlegible : ∀ p ∈ pieces, p.1.Legible)
    (hblank : ∀ p ∈ pieces, ∀ c ∈ p.2, c = ' ' ∨ c = '\t')
    (hapart : ∀ p ∈ pieces.dropLast, p.2 ≠ []) (column : Nat) :
    Scan.itemsFrom column 0 (text pieces) = (place column pieces).map .token := by
  induction pieces generalizing column with
  | nil => rfl
  | cons p pieces ih =>
    obtain ⟨t, gap⟩ := p
    obtain ⟨ht, hlegible⟩ := List.forall_mem_cons.1 hlegible
    obtain ⟨hgap, hblank⟩ := List.forall_mem_cons.1 hblank
    have htext : text ((t, gap) :: pieces) = t.written ++ (gap ++ text pieces) := by simp [text]
    have hhead : ∀ c ∈ (gap ++ text pieces).head?, Scan.isSkipped c = true := by
      intro c hc
      cases gap with
      | cons d gap =>
        obtain rfl : d = c := Option.some.inj hc
        exact Scan.isSkipped_iff.2 (hgap d List.mem_cons_self)
      | nil =>
        cases pieces with
        | nil => cases hc
        | cons q pieces => exact absurd rfl (hapart (t, []) List.mem_cons_self)
    have hrest : ∀ p ∈ pieces.dropLast, p.2 ≠ [] := by
      intro q hq
      cases pieces with
      | nil => cases hq
      | cons r pieces => exact hapart q (List.mem_cons_of_mem _ hq)
    rw [htext, Scan.itemsFrom_of_spells ht.spells hhead, Scan.itemsFrom_blank_append hgap,
      ih hlegible hblank hrest]
    rfl

theorem items_line (l : Layout) : Scan.items l.line = l.words.map .token := by
  rw [Scan.items, line, Scan.itemsFrom_blank_append l.before_blank, Nat.zero_add,
    itemsFrom_text l.legible l.gaps_blank l.apart]
  rfl

/-- Scanning a line that was laid out gives back its tokens, each at the place where its text
stands, then the end of the line, and nothing is unknown. -/
theorem scanned_as_written (l : Layout) :
    l.words.map Spanned.token = l.tokens ∧
    (∀ w ∈ l.words, (l.line.drop w.start).take (w.stop - w.start) = w.token.written) ∧
    Scan.tokens l.line = l.words ++ [⟨.endOfInput, l.line.length, l.line.length⟩] ∧
    Scan.unknowns l.line = [] ∧
    (Scanner.start l.line).drain =
      (l.words ++ [⟨.endOfInput, l.line.length, l.line.length⟩],
        ⟨[], l.line.length, [], true⟩) := by
  obtain ⟨hwords, hunknowns⟩ := Scan.words_of_items l.items_line
  refine ⟨token_place _ _, fun w hw => text_place l.before hw, ?_, hunknowns, ?_⟩
  · rw [Scan.tokens_eq, hwords]
  · have hdrain := (Scanner.Amid.start l.line).drain
    rw [← Scan.words, hwords, ← Scan.unknowns, hunknowns] at hdrain
    exact hdrain

theorem scanned_negative_parts :
    Scan.tokens "\t-0-3j  -\tx ".toList =
      [⟨.complex ⟨-0, -3⟩, 1, 6⟩, ⟨.operator .minus, 8, 9⟩, ⟨.name "x", 10, 11⟩,
        ⟨.endOfInput, 12, 12⟩] := by
  let l : Layout :=
    { before := ['\t']
      pieces := [(.complex ⟨-0, -3⟩, [' ', ' ']), (.operator .minus, ['\t']), (.name "x", [' '])]
      legible := by decide +kernel
      before_blank := by simp
      gaps_blank := by simp
      apart := by simp }
  have hline : l.line = "\t-0-3j  -\tx ".toList := by decide +kernel
  have hwords : l.words =
      [⟨.complex ⟨-0, -3⟩, 1, 6⟩, ⟨.operator .minus, 8, 9⟩, ⟨.name "x", 10, 11⟩] := by
    decide +kernel
  have htokens := l.scanned_as_written.2.2.1
  rwa [hline, hwords] at htokens

end Layout
end Reckon
