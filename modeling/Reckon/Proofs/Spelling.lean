import Reckon.Proofs.Longest

/-! Texts for tokens. A token that some text spells has a spelling of its own, numbers beyond
every finite one included, and spelled tokens with blank space after each are scanned as they
stand. -/

set_option autoImplicit false

namespace Reckon
namespace Binary64

def hugeChars : List Char := List.replicate 310 '9'

def unsignedChars : Binary64 → List Char
  | nan | infinite _ => hugeChars
  | finite _ units _ => magnitudeChars units

theorem ofUnsigned?_hugeChars (negative : Bool) :
    ofUnsigned? negative hugeChars = some (.infinite negative) := by
  cases negative <;> decide +kernel

theorem ofUnsigned?_unsignedChars {x : Binary64} (h : x.isNan = false) :
    ofUnsigned? x.isNegative x.unsignedChars = some x := by
  cases x with
  | nan => cases h
  | infinite negative => exact ofUnsigned?_hugeChars negative
  | finite negative units hs => exact ofUnsigned?_magnitudeChars negative hs

end Binary64

namespace Token

/-- The tokens that some text spells. -/
def Writable : Token → Prop
  | complex z => z.re.isNan = false ∧ z.im.isNan = false
  | number x => x.isNan = false ∧ x.isNegative = false
  | name text => text.toList ∈ Pattern.name.matches' ∧ text ≠ "sqrt" ∧ text ≠ "print"
  | ignored | endOfInput => False
  | _ => True

@[simp] theorem writable_sqrt : sqrt.Writable := trivial

@[simp] theorem writable_print : print.Writable := trivial

@[simp] theorem writable_operator (op : Operator) : (operator op).Writable := trivial

@[simp] theorem writable_leftParen : leftParen.Writable := trivial

@[simp] theorem writable_rightParen : rightParen.Writable := trivial

/-- A text for a token; the parts of a complex literal stand without parentheses. -/
def spelling : Token → List Char
  | complex z =>
    ((if z.re.isNegative then ['-'] else []) ++ z.re.unsignedChars) ++
      (if z.im.isNegative then '-' else '+') :: z.im.unsignedChars ++ ['j']
  | number x => x.unsignedChars
  | t => t.chars

theorem spells_spelling {t : Token} (h : t.Writable) : Spells t.spelling t := by
  cases t with
  | complex z =>
    obtain ⟨hre, him⟩ := h
    have hx := Binary64.ofUnsigned?_unsignedChars hre
    have hy := Binary64.ofUnsigned?_unsignedChars him
    have hxmem := Binary64.mem_numeral_of_ofUnsigned? hx
    have hymem := Binary64.mem_numeral_of_ofUnsigned? hy
    refine .complex ?_ ?_ ?_ ?_
    · cases hn : z.re.isNegative with
      | true => exact Pattern.mem_realPart.2 (.inr ⟨_, rfl, hxmem⟩)
      | false => exact Pattern.mem_realPart.2 (.inl hxmem)
    · refine Pattern.mem_imaginaryPart.2 ⟨_, _, rfl, ?_, hymem⟩
      cases z.im.isNegative <;> rfl
    · cases hn : z.re.isNegative with
      | true =>
        rw [hn] at hx
        exact hx
      | false =>
        rw [hn] at hx
        exact (Binary64.ofNumeral?_of_mem hxmem).trans hx
    · cases hn : z.im.isNegative with
      | true =>
        rw [hn] at hy
        exact hy
      | false =>
        rw [hn] at hy
        exact hy
  | number x =>
    have hx := Binary64.ofUnsigned?_unsignedChars h.1
    have hmem := Binary64.mem_numeral_of_ofUnsigned? hx
    rw [h.2] at hx
    exact .number hmem ((Binary64.ofNumeral?_of_mem hmem).trans hx)
  | name text =>
    obtain ⟨hname, hs, hp⟩ := h
    have hword := Spells.name hname (fun he => hs (String.toList_injective he))
      (fun he => hp (String.toList_injective he))
    rwa [String.ofList_toList] at hword
  | sqrt => exact .sqrt
  | print => exact .print
  | operator op => exact .operator op
  | leftParen => exact .leftParen
  | rightParen => exact .rightParen
  | assign => exact .assign
  | ignored => exact h.elim
  | endOfInput => exact h.elim

end Token

theorem Spells.writable {w : List Char} {t : Token} (h : Spells w t) : t.Writable := by
  cases h with
  | complex hre him hx hy =>
    obtain ⟨x, hx', hnan⟩ := Binary64.exists_ofNumeral?_realPart hre
    obtain ⟨y, hy', hnan'⟩ := Binary64.exists_ofNumeral?_imaginaryPart him
    rw [hx] at hx'
    rw [hy] at hy'
    cases hx'
    cases hy'
    exact ⟨hnan, hnan'⟩
  | number hw hx =>
    obtain ⟨x, hx', hx''⟩ := Binary64.exists_ofNumeral? hw
    rw [hx] at hx'
    cases hx'
    exact hx''
  | name hw hs hp =>
    refine ⟨by rwa [String.toList_ofList], ?_, ?_⟩
    · rintro he
      exact hs (by rw [← he, String.toList_ofList])
    · rintro he
      exact hp (by rw [← he, String.toList_ofList])
  | _ => trivial

theorem Token.first?_of_spells {w rest : List Char} {t : Token} (hs : Spells w t)
    (hr : ∀ c ∈ rest.head?, Scan.isSkipped c = true) :
    first? (w ++ rest) = some (t, w.length) := by
  rcases hs.takes rest with hfirst | ⟨t', n, hfirst, hlt⟩
  · exact hfirst
  · -- A longer text would hold the blank character that follows.
    obtain ⟨v, rest', hv, hlen, hs'⟩ := spells_of_first? hfirst
    rcases List.append_eq_append_iff.1 hv with ⟨more, rfl, hrest⟩ | ⟨more, rfl, -⟩
    · cases more with
      | nil => simp at hlen; omega
      | cons c more =>
        have hskip := hr c (by simp [hrest])
        rw [hs'.isSkipped_eq_false (by simp)] at hskip
        cases hskip
    · rw [List.length_append] at hlt
      omega

namespace Scan

theorem itemsFrom_of_spells {w rest : List Char} {t : Token} (hs : Spells w t)
    (hr : ∀ c ∈ rest.head?, isSkipped c = true) (column : Nat) :
    itemsFrom column 0 (w ++ rest) =
      .token ⟨t, column, column + w.length⟩ :: itemsFrom (column + w.length) 0 rest :=
  itemsFrom_token hs (Token.first?_of_spells hs hr) column

def spaced (ts : List Token) : List Char := ts.flatMap fun t => t.spelling ++ [' ']

theorem itemsFrom_spaced {ts : List Token} (h : ∀ t ∈ ts, t.Writable) (column : Nat) :
    ∃ words : List Spanned, words.map Spanned.token = ts ∧
      itemsFrom column 0 (spaced ts) = words.map .token := by
  induction ts generalizing column with
  | nil => exact ⟨[], rfl, rfl⟩
  | cons t ts ih =>
    obtain ⟨ht, hts⟩ := List.forall_mem_cons.1 h
    obtain ⟨words, hwords, hitems⟩ := ih hts (column + t.spelling.length + 1)
    have hline : spaced (t :: ts) = t.spelling ++ ' ' :: spaced ts := by simp [spaced]
    refine ⟨⟨t, column, column + t.spelling.length⟩ :: words, by rw [List.map_cons, hwords], ?_⟩
    rw [hline, itemsFrom_of_spells (Token.spells_spelling ht) (by simp [isSkipped]),
      itemsFrom_skip rfl, hitems, List.map_cons]

end Scan
end Reckon
