import Mathlib.Computability.RegularExpressions
import Reckon.Token

/-! The patterns of the tokens as regular expressions, and the texts that spell a token: each
matches the pattern of the token's kind, and a literal denotes the number in it. -/

set_option autoImplicit false

namespace Reckon
namespace Pattern
open RegularExpression

def oneOf : List Char → RegularExpression Char
  | [] => 0
  | c :: cs => char c + oneOf cs

def range (low high : Char) : RegularExpression Char :=
  oneOf ((List.range' low.toNat (high.toNat + 1 - low.toNat)).map Char.ofNat)

def optional (p : RegularExpression Char) : RegularExpression Char := 1 + p

def oneOrMore (p : RegularExpression Char) : RegularExpression Char := p * p.star

def exactly (text : List Char) : RegularExpression Char :=
  text.foldr (fun c p => char c * p) 1

def digits : RegularExpression Char := oneOrMore (range '0' '9')

def numeral : RegularExpression Char := digits * optional (char '.' * digits)

def realPart : RegularExpression Char := optional (char '-') * numeral

def imaginaryPart : RegularExpression Char := (char '+' + char '-') * numeral

def letter : RegularExpression Char := range 'a' 'z' + range 'A' 'Z' + char '_'

def name : RegularExpression Char := letter * (letter + range '0' '9').star

def blank : RegularExpression Char := char ' ' + char '\t'

end Pattern

/-- The pattern of a kind of token; no text is the mark of the end. -/
def Kind.pattern : Kind → RegularExpression Char
  | .complex => Pattern.realPart * Pattern.imaginaryPart * .char 'j'
  | .number => Pattern.numeral
  | .name => Pattern.name
  | .sqrt => Pattern.exactly "sqrt".toList
  | .print => Pattern.exactly "print".toList
  | .operator op => .char op.symbol
  | .leftParen => .char '('
  | .rightParen => .char ')'
  | .assign => .char '='
  | .ignored => Pattern.oneOrMore Pattern.blank
  | .endOfInput => 0

/-- The texts of tokens, with what each of them denotes. Of two names that match their patterns
with equal length the reserved one wins. -/
inductive Spells : List Char → Token → Prop
  | complex {re im : List Char} {x y : Binary64} (hr : re ∈ Pattern.realPart.matches')
      (hi : im ∈ Pattern.imaginaryPart.matches') (hx : Binary64.ofNumeral? re = some x)
      (hy : Binary64.ofNumeral? im = some y) : Spells (re ++ im ++ ['j']) (.complex ⟨x, y⟩)
  | number {w : List Char} {x : Binary64} (hw : w ∈ Pattern.numeral.matches')
      (hx : Binary64.ofNumeral? w = some x) : Spells w (.number x)
  | sqrt : Spells "sqrt".toList .sqrt
  | print : Spells "print".toList .print
  | name {w : List Char} (hw : w ∈ Pattern.name.matches') (hs : w ≠ "sqrt".toList)
      (hp : w ≠ "print".toList) : Spells w (.name (String.ofList w))
  | operator (op : Operator) : Spells [op.symbol] (.operator op)
  | leftParen : Spells ['('] .leftParen
  | rightParen : Spells [')'] .rightParen
  | assign : Spells ['='] .assign

namespace Pattern
open RegularExpression

def IsClass (p : RegularExpression Char) (test : Char → Bool) : Prop :=
  ∀ w, w ∈ p.matches' ↔ ∃ c, w = [c] ∧ test c = true

theorem mem_oneOf {cs w : List Char} : w ∈ (oneOf cs).matches' ↔ ∃ c ∈ cs, w = [c] := by
  induction cs with
  | nil => exact ⟨fun h => h.elim, fun ⟨c, hc, _⟩ => absurd hc (by simp)⟩
  | cons d cs ih =>
    rw [oneOf, matches'_add, Language.mem_add, ih]
    constructor
    · rintro (h | ⟨c, hc, h⟩)
      · exact ⟨d, by simp, h⟩
      · exact ⟨c, by simp [hc], h⟩
    · rintro ⟨c, hc, h⟩
      rcases List.mem_cons.1 hc with rfl | hc
      · exact .inl h
      · exact .inr ⟨c, hc, h⟩

theorem toNat_ofNat {n : Nat} (h : n < 0xD800) : (Char.ofNat n).toNat = n := by
  have hv : n.isValidChar := .inl h
  rw [Char.ofNat, dif_pos hv]
  rfl

theorem isClass_range (low high : Char) (h : high.toNat < 0xD800) :
    IsClass (range low high) fun c => decide (low.toNat ≤ c.toNat ∧ c.toNat ≤ high.toNat) := by
  intro w
  rw [range, mem_oneOf]
  constructor
  · rintro ⟨c, hc, rfl⟩
    obtain ⟨n, hn, rfl⟩ := List.mem_map.1 hc
    rw [List.mem_range'_1] at hn
    refine ⟨_, rfl, decide_eq_true ?_⟩
    rw [toNat_ofNat (by omega)]
    omega
  · rintro ⟨c, rfl, hc⟩
    have hc := of_decide_eq_true hc
    refine ⟨c, List.mem_map.2 ⟨c.toNat, ?_, Char.ofNat_toNat c⟩, rfl⟩
    rw [List.mem_range'_1]
    omega

theorem isClass_char (d : Char) : IsClass (char d) (· == d) := by
  intro w
  rw [matches'_char]
  constructor
  · intro h
    exact ⟨d, h, by simp⟩
  · rintro ⟨c, rfl, hc⟩
    rw [eq_of_beq hc]
    exact Set.mem_singleton _

theorem IsClass.add {p q : RegularExpression Char} {test other : Char → Bool}
    (hp : IsClass p test) (hq : IsClass q other) :
    IsClass (p + q) fun c => test c || other c := by
  intro w
  rw [matches'_add, Language.mem_add, hp w, hq w]
  constructor
  · rintro (⟨c, hw, hc⟩ | ⟨c, hw, hc⟩)
    · exact ⟨c, hw, by simp [hc]⟩
    · exact ⟨c, hw, by simp [hc]⟩
  · rintro ⟨c, hw, hc⟩
    rcases Bool.or_eq_true_iff.1 hc with hc | hc
    · exact .inl ⟨c, hw, hc⟩
    · exact .inr ⟨c, hw, hc⟩

theorem IsClass.congr {p : RegularExpression Char} {test other : Char → Bool}
    (hp : IsClass p test) (h : ∀ c, test c = other c) : IsClass p other := by
  rwa [show other = test from funext fun c => (h c).symm]

theorem IsClass.mem_star {p : RegularExpression Char} {test : Char → Bool} (hp : IsClass p test)
    {w : List Char} : w ∈ p.star.matches' ↔ ∀ c ∈ w, test c = true := by
  rw [matches'_star, Language.mem_kstar]
  constructor
  · rintro ⟨ws, rfl, hws⟩ c hc
    obtain ⟨v, hv, hc⟩ := List.mem_flatten.1 hc
    obtain ⟨d, rfl, hd⟩ := (hp v).1 (hws v hv)
    rwa [List.mem_singleton.1 hc]
  · intro h
    refine ⟨w.map fun c => [c], by simp [← List.flatMap_def], ?_⟩
    intro v hv
    obtain ⟨c, hc, rfl⟩ := List.mem_map.1 hv
    exact (hp _).2 ⟨c, rfl, h c hc⟩

theorem IsClass.mem_mul {p q : RegularExpression Char} {test : Char → Bool}
    (hp : IsClass p test) {w : List Char} :
    w ∈ (p * q).matches' ↔ ∃ c v, w = c :: v ∧ test c = true ∧ v ∈ q.matches' := by
  rw [matches'_mul, Language.mem_mul]
  constructor
  · rintro ⟨u, hu, v, hv, rfl⟩
    obtain ⟨c, rfl, hc⟩ := (hp u).1 hu
    exact ⟨c, v, rfl, hc, hv⟩
  · rintro ⟨c, v, rfl, hc, hv⟩
    exact ⟨[c], (hp _).2 ⟨c, rfl, hc⟩, v, hv, rfl⟩

theorem mem_optional {p : RegularExpression Char} {w : List Char} :
    w ∈ (optional p).matches' ↔ w = [] ∨ w ∈ p.matches' := Iff.rfl

theorem mem_exactly {text w : List Char} : w ∈ (exactly text).matches' ↔ w = text := by
  induction text generalizing w with
  | nil => exact Iff.rfl
  | cons c text ih =>
    rw [show exactly (c :: text) = char c * exactly text from rfl, (isClass_char c).mem_mul]
    constructor
    · rintro ⟨d, v, rfl, hd, hv⟩
      rw [eq_of_beq hd, ih.1 hv]
    · rintro rfl
      exact ⟨c, text, rfl, by simp, ih.2 rfl⟩

theorem isDigit_eq (c : Char) : c.isDigit = decide (48 ≤ c.toNat ∧ c.toNat ≤ 57) := by
  rw [Bool.decide_and]
  rfl

theorem isLower_eq (c : Char) : c.isLower = decide (97 ≤ c.toNat ∧ c.toNat ≤ 122) := by
  rw [Bool.decide_and]
  rfl

theorem isUpper_eq (c : Char) : c.isUpper = decide (65 ≤ c.toNat ∧ c.toNat ≤ 90) := rfl

theorem isClass_digit : IsClass (range '0' '9') Char.isDigit :=
  (isClass_range '0' '9' (by decide)).congr fun c => (isDigit_eq c).symm

theorem isClass_letter : IsClass letter Lexeme.isNameStart := by
  have hlower : IsClass (range 'a' 'z') Char.isLower :=
    (isClass_range 'a' 'z' (by decide)).congr fun c => (isLower_eq c).symm
  have hupper : IsClass (range 'A' 'Z') Char.isUpper := isClass_range 'A' 'Z' (by decide)
  refine ((hlower.add hupper).add (isClass_char '_')).congr fun c => ?_
  rw [Bool.or_comm c.isLower]
  rfl

theorem isClass_namePart : IsClass (letter + range '0' '9') Lexeme.isNamePart := by
  refine (isClass_letter.add isClass_digit).congr fun c => ?_
  rw [Lexeme.isNameStart, Lexeme.isNamePart, Char.isAlphanum]
  cases c.isAlpha <;> cases c.isDigit <;> simp

theorem mem_digits {w : List Char} :
    w ∈ digits.matches' ↔ w ≠ [] ∧ ∀ c ∈ w, c.isDigit = true := by
  rw [digits, oneOrMore, isClass_digit.mem_mul]
  constructor
  · rintro ⟨c, v, rfl, hc, hv⟩
    refine ⟨by simp, ?_⟩
    simpa [hc] using isClass_digit.mem_star.1 hv
  · rintro ⟨hne, h⟩
    obtain ⟨c, v, rfl⟩ := List.exists_cons_of_ne_nil hne
    exact ⟨c, v, rfl, h c (by simp), isClass_digit.mem_star.2 fun d hd => h d (by simp [hd])⟩

theorem mem_numeral {w : List Char} :
    w ∈ numeral.matches' ↔ w ∈ digits.matches' ∨ ∃ whole fraction,
      w = whole ++ '.' :: fraction ∧ whole ∈ digits.matches' ∧ fraction ∈ digits.matches' := by
  rw [numeral, matches'_mul, Language.mem_mul]
  constructor
  · rintro ⟨whole, hw, v, hv, rfl⟩
    rcases mem_optional.1 hv with rfl | hv
    · exact .inl (by simpa using hw)
    · obtain ⟨c, fraction, rfl, hc, hf⟩ := (isClass_char '.').mem_mul.1 hv
      rw [eq_of_beq hc]
      exact .inr ⟨whole, fraction, rfl, hw, hf⟩
  · rintro (hw | ⟨whole, fraction, rfl, hw, hf⟩)
    · exact ⟨w, hw, [], mem_optional.2 (.inl rfl), by simp⟩
    · refine ⟨whole, hw, '.' :: fraction, mem_optional.2 (.inr ?_), rfl⟩
      exact (isClass_char '.').mem_mul.2 ⟨'.', fraction, rfl, by simp, hf⟩

theorem mem_name {w : List Char} :
    w ∈ name.matches' ↔ ∃ c v, w = c :: v ∧ Lexeme.isNameStart c = true ∧
      ∀ d ∈ v, Lexeme.isNamePart d = true := by
  rw [name, isClass_letter.mem_mul]
  simp only [isClass_namePart.mem_star]

theorem mem_realPart {w : List Char} :
    w ∈ realPart.matches' ↔ w ∈ numeral.matches' ∨ ∃ v, w = '-' :: v ∧ v ∈ numeral.matches' := by
  rw [realPart, matches'_mul, Language.mem_mul]
  constructor
  · rintro ⟨u, hu, v, hv, rfl⟩
    rcases mem_optional.1 hu with rfl | hu
    · exact .inl hv
    · obtain ⟨c, rfl, hc⟩ := (isClass_char '-' u).1 hu
      rw [eq_of_beq hc]
      exact .inr ⟨v, rfl, hv⟩
  · rintro (hw | ⟨v, rfl, hv⟩)
    · exact ⟨[], mem_optional.2 (.inl rfl), w, hw, rfl⟩
    · exact ⟨['-'], mem_optional.2 (.inr rfl), v, hv, rfl⟩

theorem mem_imaginaryPart {w : List Char} :
    w ∈ imaginaryPart.matches' ↔
      ∃ c v, w = c :: v ∧ Complex.isSign c = true ∧ v ∈ numeral.matches' :=
  ((isClass_char '+').add (isClass_char '-')).mem_mul

end Pattern
end Reckon
