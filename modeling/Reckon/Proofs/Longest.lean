import Reckon.Proofs.Literal
import Reckon.Proofs.Words
import Reckon.Token.Scanner

/-! The scanner takes the longest lexeme at every place. Of the texts at the head that match a
pattern it finds one that no other exceeds, with the token that this text spells, and where no
text at the head matches it sets one character aside. -/

set_option autoImplicit false

namespace Reckon
open RegularExpression

/-- The text matches the pattern of some kind of token, blank space apart. -/
def IsLexeme (w : List Char) : Prop := ∃ k : Kind, k ≠ .ignored ∧ w ∈ k.pattern.matches'

structure Longest (cs w : List Char) : Prop where
  lexeme : IsLexeme w
  isHead : w <+: cs
  greatest : ∀ v, v <+: cs → IsLexeme v → v.length ≤ w.length

namespace Lexeme
open Pattern

theorem numeral?_of_isDigit_eq_false {c : Char} (h : c.isDigit = false) (cs : List Char) :
    numeral? (c :: cs) = none := by simp [numeral?, digitCount, h]

theorem complex?_of_isDigit_eq_false {c : Char} (h : c.isDigit = false) (hc : c ≠ '-')
    (cs : List Char) : complex? (c :: cs) = none := by
  rw [complex?, if_neg hc]
  exact unsignedComplex?_of_numeral? (numeral?_of_isDigit_eq_false h cs)

theorem isDigit_of_isNameStart {c : Char} (h : isNameStart c = true) : c.isDigit = false := by
  rw [isDigit_eq]
  refine decide_eq_false fun hd => ?_
  rcases Bool.or_eq_true_iff.1 h with h | h
  · rcases Bool.or_eq_true_iff.1 h with h | h
    · rw [isUpper_eq] at h
      have := of_decide_eq_true h
      omega
    · rw [isLower_eq] at h
      have := of_decide_eq_true h
      omega
  · rw [eq_of_beq h] at hd
    exact absurd hd (by decide)

theorem sqrt_mem_name : "sqrt".toList ∈ Pattern.name.matches' :=
  mem_name.2 ⟨'s', ['q', 'r', 't'], rfl, rfl, List.all_eq_true.1 rfl⟩

theorem print_mem_name : "print".toList ∈ Pattern.name.matches' :=
  mem_name.2 ⟨'p', ['r', 'i', 'n', 't'], rfl, rfl, List.all_eq_true.1 rfl⟩

theorem name?_append {w : List Char} (h : w ∈ Pattern.name.matches') (rest : List Char) :
    name? (w ++ rest) = some (w.length + (rest.takeWhile isNamePart).length) := by
  obtain ⟨c, v, rfl, hc, hv⟩ := mem_name.1 h
  rw [List.cons_append, name?, if_pos hc, List.takeWhile_append_of_pos hv, List.length_append,
    List.length_cons]
  congr 1
  omega

theorem mem_name_of_name? {cs : List Char} {n : Nat} (h : name? cs = some n) :
    ∃ w rest, cs = w ++ rest ∧ w.length = n ∧ w ∈ Pattern.name.matches' := by
  cases cs with
  | nil => cases h
  | cons c cs =>
    rw [name?] at h
    split at h
    · rename_i hc
      refine ⟨c :: cs.takeWhile isNamePart, cs.dropWhile isNamePart, ?_, Option.some.inj h, ?_⟩
      · rw [List.cons_append, List.takeWhile_append_dropWhile]
      · exact mem_name.2 ⟨c, _, rfl, hc, fun d hd => List.all_eq_true.1 List.all_takeWhile d hd⟩
    · cases h

theorem word_of_ne {w : List Char} (hs : w ≠ "sqrt".toList) (hp : w ≠ "print".toList) :
    word (String.ofList w) = .name (String.ofList w) := by
  have hne : ∀ text : String, w ≠ text.toList → String.ofList w ≠ text := by
    rintro text hw rfl
    exact hw String.toList_ofList.symm
  rw [word, if_neg (hne _ hs), if_neg (hne _ hp)]

theorem spells_word {w : List Char} (h : w ∈ Pattern.name.matches') :
    Spells w (word (String.ofList w)) := by
  unfold word
  split
  · rename_i hs
    rw [← String.toList_ofList (l := w), hs]
    exact .sqrt
  · rename_i hs
    split
    · rename_i hp
      rw [← String.toList_ofList (l := w), hp]
      exact .print
    · rename_i hp
      refine .name h ?_ ?_
      · rintro rfl
        exact hs (String.ofList_toList)
      · rintro rfl
        exact hp (String.ofList_toList)

theorem exists_spells_complex {w : List Char} (h : w ∈ Kind.complex.pattern.matches') :
    ∃ z, Complex.ofLiteral? w = some z ∧ Spells w (.complex z) := by
  obtain ⟨re, im, rfl, hre, him⟩ := mem_complex_iff.1 h
  obtain ⟨x, hx, -⟩ := Binary64.exists_ofNumeral?_realPart hre
  obtain ⟨y, hy, -⟩ := Binary64.exists_ofNumeral?_imaginaryPart him
  exact ⟨_, Complex.ofLiteral?_append him hx hy, .complex hre him hx hy⟩

theorem spells_mark {c : Char} {t : Token} (h : mark? c = some t) : Spells [c] t := by
  unfold mark? at h
  split at h
  · rename_i hc
    cases h
    exact hc ▸ .leftParen
  · split at h
    · rename_i hc
      cases h
      exact hc ▸ .rightParen
    · split at h
      · rename_i hc
        cases h
        exact hc ▸ .assign
      · obtain ⟨op, hop, rfl⟩ := Option.map_eq_some_iff.1 h
        have hc := List.find?_some (p := fun op : Operator => op.symbol == c) hop
        exact eq_of_beq hc ▸ .operator op

end Lexeme

/-- The characters that are taken spell the token that is found. -/
theorem Token.spells_of_first? {cs : List Char} {t : Token} {n : Nat}
    (h : first? cs = some (t, n)) : ∃ w rest, cs = w ++ rest ∧ w.length = n ∧ Spells w t := by
  unfold first? at h
  split at h
  · rename_i k hk
    obtain ⟨z, hz, ht⟩ := Option.map_eq_some_iff.1 h
    cases ht
    obtain ⟨w, rest, rfl, rfl, hw⟩ := Lexeme.mem_complex_of_complex? hk
    obtain ⟨z', hz', hs⟩ := Lexeme.exists_spells_complex hw
    rw [List.take_left, hz'] at hz
    cases hz
    exact ⟨w, rest, rfl, rfl, hs⟩
  · split at h
    · rename_i k hk
      obtain ⟨x, hx, ht⟩ := Option.map_eq_some_iff.1 h
      cases ht
      obtain ⟨w, rest, rfl, rfl, hw⟩ := Lexeme.mem_numeral_of_numeral? hk
      rw [List.take_left] at hx
      exact ⟨w, rest, rfl, rfl, .number hw hx⟩
    · split at h
      · rename_i k hk
        cases h
        obtain ⟨w, rest, rfl, rfl, hw⟩ := Lexeme.mem_name_of_name? hk
        rw [List.take_left]
        exact ⟨w, rest, rfl, rfl, Lexeme.spells_word hw⟩
      · obtain ⟨u, hu, ht⟩ := Option.map_eq_some_iff.1 h
        cases ht
        obtain ⟨c, hc, hm⟩ := Option.bind_eq_some_iff.1 hu
        obtain ⟨rest, rfl⟩ := List.head?_eq_some_iff.1 hc
        exact ⟨[c], rest, rfl, rfl, Lexeme.spells_mark hm⟩

def Token.Takes (cs : List Char) (t : Token) (n : Nat) : Prop :=
  first? cs = some (t, n) ∨ ∃ t' n', first? cs = some (t', n') ∧ n < n'

namespace Token

theorem first?_of_complex {w : List Char} (h : w ∈ Kind.complex.pattern.matches')
    (rest : List Char) : ∃ z, Complex.ofLiteral? w = some z ∧
      first? (w ++ rest) = some (.complex z, w.length) := by
  have hlen := Lexeme.complex?_append h rest
  obtain ⟨z, hz, -⟩ := Lexeme.exists_spells_complex h
  refine ⟨z, hz, ?_⟩
  simp only [first?, hlen, List.take_left, hz, Option.map_some]

theorem first?_of_spells_complex {w : List Char} {z : Complex} (h : Spells w (.complex z))
    (rest : List Char) : first? (w ++ rest) = some (.complex z, w.length) := by
  cases h with
  | complex hre him hx hy =>
    have hw := Lexeme.mem_complex_iff.2 ⟨_, _, rfl, hre, him⟩
    obtain ⟨z, hz, hfirst⟩ := first?_of_complex hw rest
    rw [Complex.ofLiteral?_append him hx hy] at hz
    cases hz
    exact hfirst

/-- Where a complex literal begins, everything without a `j` is shorter. -/
theorem takes_of_complex? {w rest : List Char} (hj : 'j' ∉ w) {k : Nat}
    (h : Lexeme.complex? (w ++ rest) = some k) (t : Token) : Takes (w ++ rest) t w.length := by
  obtain ⟨v, rest', hv, hlen, hm⟩ := Lexeme.mem_complex_of_complex? h
  obtain ⟨z, -, hz⟩ := first?_of_complex hm rest'
  rw [← hv] at hz
  refine .inr ⟨_, _, hz, ?_⟩
  obtain ⟨re, im, rfl, -, -⟩ := Lexeme.mem_complex_iff.1 hm
  rcases List.append_eq_append_iff.1 hv with ⟨more, hmore, -⟩ | ⟨more, hmore, -⟩
  · have hne : more ≠ [] := by
      rintro rfl
      exact hj (by simpa using congrArg ('j' ∈ ·) hmore)
    have := List.length_pos_of_ne_nil hne
    rw [hmore, List.length_append]
    omega
  · exact absurd (show 'j' ∈ w by simp [hmore]) hj

theorem takes_numeral {w : List Char} {x : Binary64} (h : w ∈ Pattern.numeral.matches')
    (hx : Binary64.ofNumeral? w = some x) (rest : List Char) :
    Takes (w ++ rest) (.number x) w.length := by
  cases hc : Lexeme.complex? (w ++ rest) with
  | some k =>
    have hj : 'j' ∉ w := fun hj => Pattern.ne_of_mem_numeral h hj rfl (by decide) rfl
    exact takes_of_complex? hj hc _
  | none =>
    obtain ⟨n, hn, hle⟩ := Lexeme.le_numeral? h rest
    obtain ⟨v, rest', hv, hlen, hm⟩ := Lexeme.mem_numeral_of_numeral? hn
    obtain ⟨y, hy, -⟩ := Binary64.exists_ofNumeral? hm
    have htake : (w ++ rest).take n = v := by rw [hv, ← hlen, List.take_left]
    have hfirst : first? (w ++ rest) = some (.number y, n) := by
      simp only [first?, hc, hn, htake, hy, Option.map_some]
    rcases Nat.lt_or_eq_of_le hle with hlt | heq
    · exact .inr ⟨_, _, hfirst, hlt⟩
    · obtain ⟨rfl, -⟩ := List.append_inj hv (heq.trans hlen.symm)
      rw [hx] at hy
      cases hy
      exact .inl (heq ▸ hfirst)

theorem takes_word {w : List Char} (h : w ∈ Pattern.name.matches') (rest : List Char) :
    Takes (w ++ rest) (Lexeme.word (String.ofList w)) w.length := by
  have hname := Lexeme.name?_append h rest
  obtain ⟨c, v, rfl, hc, -⟩ := Pattern.mem_name.1 h
  have hd := Lexeme.isDigit_of_isNameStart hc
  have hne : c ≠ '-' := by
    rintro rfl
    cases hc
  have hfirst : first? (c :: v ++ rest) = some (Lexeme.word (String.ofList ((c :: v ++ rest).take
      ((c :: v).length + (rest.takeWhile Lexeme.isNamePart).length))),
      (c :: v).length + (rest.takeWhile Lexeme.isNamePart).length) := by
    have hcomplex := Lexeme.complex?_of_isDigit_eq_false hd hne (v ++ rest)
    have hnumeral := Lexeme.numeral?_of_isDigit_eq_false hd (v ++ rest)
    rw [← List.cons_append] at hcomplex hnumeral
    simp only [first?, hcomplex, hnumeral, hname]
  cases hmore : (rest.takeWhile Lexeme.isNamePart).length with
  | zero =>
    rw [hmore, Nat.add_zero, List.take_left] at hfirst
    exact .inl hfirst
  | succ k => exact .inr ⟨_, _, hfirst, by omega⟩

theorem takes_mark {c : Char} {t : Token} (hm : Lexeme.mark? c = some t)
    (hd : c.isDigit = false) (hn : Lexeme.isNameStart c = false) (rest : List Char) :
    Takes (c :: rest) t 1 := by
  cases hc : Lexeme.complex? (c :: rest) with
  | some k =>
    have hj : 'j' ∉ [c] := by
      rintro hj
      rw [← List.mem_singleton.1 hj] at hn
      cases hn
    exact takes_of_complex? hj hc t
  | none =>
    refine .inl ?_
    simp [first?, hc, Lexeme.numeral?_of_isDigit_eq_false hd, Lexeme.name?, hn, hm]

end Token

theorem Spells.takes {w : List Char} {t : Token} (h : Spells w t) (rest : List Char) :
    Token.Takes (w ++ rest) t w.length := by
  cases h with
  | complex hre him hx hy =>
    exact .inl (Token.first?_of_spells_complex (.complex hre him hx hy) rest)
  | number hw hx => exact Token.takes_numeral hw hx rest
  | sqrt => exact Token.takes_word Lexeme.sqrt_mem_name rest
  | print => exact Token.takes_word Lexeme.print_mem_name rest
  | name hw hs hp =>
    have hword := Token.takes_word hw rest
    rwa [Lexeme.word_of_ne hs hp] at hword
  | operator op =>
    exact Token.takes_mark (by cases op <;> rfl) (by cases op <;> rfl) (by cases op <;> rfl) rest
  | leftParen => exact Token.takes_mark rfl rfl rfl rest
  | rightParen => exact Token.takes_mark rfl rfl rfl rest
  | assign => exact Token.takes_mark rfl rfl rfl rest

theorem isLexeme_iff {w : List Char} : IsLexeme w ↔ ∃ t, Spells w t := by
  constructor
  · rintro ⟨k, hk, hw⟩
    cases k with
    | complex =>
      obtain ⟨z, -, hs⟩ := Lexeme.exists_spells_complex hw
      exact ⟨_, hs⟩
    | number =>
      obtain ⟨x, hx, -⟩ := Binary64.exists_ofNumeral? hw
      exact ⟨_, .number hw hx⟩
    | name => exact ⟨_, Lexeme.spells_word hw⟩
    | sqrt => exact ⟨.sqrt, Pattern.mem_exactly.1 hw ▸ .sqrt⟩
    | print => exact ⟨.print, Pattern.mem_exactly.1 hw ▸ .print⟩
    | operator op => exact ⟨.operator op, (show w = [op.symbol] from hw) ▸ .operator op⟩
    | leftParen => exact ⟨.leftParen, (show w = ['('] from hw) ▸ .leftParen⟩
    | rightParen => exact ⟨.rightParen, (show w = [')'] from hw) ▸ .rightParen⟩
    | assign => exact ⟨.assign, (show w = ['='] from hw) ▸ .assign⟩
    | ignored => exact absurd rfl hk
    | endOfInput => exact hw.elim
  · rintro ⟨t, h⟩
    cases h with
    | complex hre him =>
      exact ⟨.complex, by simp, Lexeme.mem_complex_iff.2 ⟨_, _, rfl, hre, him⟩⟩
    | number hw => exact ⟨.number, by simp, hw⟩
    | sqrt => exact ⟨.sqrt, by simp, Pattern.mem_exactly.2 rfl⟩
    | print => exact ⟨.print, by simp, Pattern.mem_exactly.2 rfl⟩
    | name hw => exact ⟨.name, by simp, hw⟩
    | operator op => exact ⟨.operator op, by simp, rfl⟩
    | leftParen => exact ⟨.leftParen, by simp, rfl⟩
    | rightParen => exact ⟨.rightParen, by simp, rfl⟩
    | assign => exact ⟨.assign, by simp, rfl⟩

theorem Token.first?_eq_none {cs : List Char} (h : first? cs = none) {v : List Char}
    (hv : v <+: cs) : ¬ IsLexeme v := by
  intro hlex
  obtain ⟨t, ht⟩ := isLexeme_iff.1 hlex
  obtain ⟨rest, rfl⟩ := hv
  rcases ht.takes rest with htake | ⟨t', n, htake, -⟩
  · simp [htake] at h
  · simp [htake] at h

theorem Token.longest_of_first? {w rest : List Char} {t : Token}
    (h : first? (w ++ rest) = some (t, w.length)) : Longest (w ++ rest) w ∧ Spells w t := by
  obtain ⟨v, rest', hv, hlen, hs⟩ := spells_of_first? h
  obtain ⟨rfl, -⟩ := List.append_inj hv hlen.symm
  refine ⟨⟨isLexeme_iff.2 ⟨t, hs⟩, List.prefix_append _ _, ?_⟩, hs⟩
  intro u hu hlex
  obtain ⟨t', ht'⟩ := isLexeme_iff.1 hlex
  obtain ⟨more, hmore⟩ := hu
  have htakes := ht'.takes more
  rw [hmore, Takes, h] at htakes
  rcases htakes with hfirst | ⟨t'', n, hfirst, hlt⟩
  · have := (Prod.mk.inj (Option.some.inj hfirst)).2
    omega
  · have := (Prod.mk.inj (Option.some.inj hfirst)).2
    omega

theorem Token.first?_of_longest {w rest : List Char} {t : Token} (h : Longest (w ++ rest) w)
    (hs : Spells w t) : first? (w ++ rest) = some (t, w.length) := by
  rcases hs.takes rest with hfirst | ⟨t', n, hfirst, hlt⟩
  · exact hfirst
  · obtain ⟨v, rest', hv, hlen, hs'⟩ := spells_of_first? hfirst
    have := h.greatest v ⟨rest', hv.symm⟩ (isLexeme_iff.2 ⟨t', hs'⟩)
    omega

theorem Spells.ne_nil {w : List Char} {t : Token} (h : Spells w t) : w ≠ [] := by
  cases h with
  | number hw =>
    obtain ⟨c, v, rfl, -⟩ := Pattern.head_of_mem_numeral hw
    simp
  | name hw =>
    obtain ⟨c, v, rfl, -⟩ := Pattern.mem_name.1 hw
    simp
  | _ => simp

namespace Scan

theorem isSkipped_iff {c : Char} : isSkipped c = true ↔ c = ' ' ∨ c = '\t' := by simp [isSkipped]

theorem isSkipped_of_ne {c : Char} (hs : c ≠ ' ') (ht : c ≠ '\t') : isSkipped c = false := by
  simp [isSkipped, hs, ht]

theorem isSkipped_of_class {test : Char → Bool} {c : Char} (hc : test c = true)
    (hs : test ' ' = false) (ht : test '\t' = false) : isSkipped c = false := by
  refine isSkipped_of_ne ?_ ?_
  · rintro rfl
    simp [hs] at hc
  · rintro rfl
    simp [ht] at hc

theorem isSkipped_of_mem_numeral {w : List Char} (h : w ∈ Pattern.numeral.matches') {c : Char}
    (hc : c ∈ w) : isSkipped c = false :=
  isSkipped_of_ne (Pattern.ne_of_mem_numeral h hc rfl (by decide))
    (Pattern.ne_of_mem_numeral h hc rfl (by decide))

theorem isSkipped_of_mem_name {w : List Char} (h : w ∈ Pattern.name.matches') {c : Char}
    (hc : c ∈ w) : isSkipped c = false := by
  obtain ⟨d, v, rfl, hd, hv⟩ := Pattern.mem_name.1 h
  rcases List.mem_cons.1 hc with rfl | hc
  · exact isSkipped_of_class hd rfl rfl
  · exact isSkipped_of_class (hv c hc) rfl rfl

theorem isSkipped_of_mem_complex {w : List Char} (h : w ∈ Kind.complex.pattern.matches')
    {c : Char} (hc : c ∈ w) : isSkipped c = false := by
  obtain ⟨re, im, rfl, hre, him⟩ := Lexeme.mem_complex_iff.1 h
  rcases List.mem_append.1 hc with hc | hc
  · rcases List.mem_append.1 hc with hc | hc
    · rcases Pattern.mem_realPart.1 hre with hre | ⟨v, rfl, hv⟩
      · exact isSkipped_of_mem_numeral hre hc
      · rcases List.mem_cons.1 hc with rfl | hc
        · rfl
        · exact isSkipped_of_mem_numeral hv hc
    · obtain ⟨sign, v, rfl, hs, hv⟩ := Pattern.mem_imaginaryPart.1 him
      rcases List.mem_cons.1 hc with rfl | hc
      · exact isSkipped_of_class hs rfl rfl
      · exact isSkipped_of_mem_numeral hv hc
  · rw [List.mem_singleton.1 hc]
    rfl

end Scan

theorem Spells.isSkipped_eq_false {w : List Char} {t : Token} (h : Spells w t) {c : Char}
    (hc : c ∈ w) : Scan.isSkipped c = false := by
  cases h with
  | complex hre him =>
    exact Scan.isSkipped_of_mem_complex (Lexeme.mem_complex_iff.2 ⟨_, _, rfl, hre, him⟩) hc
  | number hw => exact Scan.isSkipped_of_mem_numeral hw hc
  | name hw => exact Scan.isSkipped_of_mem_name hw hc
  | sqrt => exact Scan.isSkipped_of_mem_name Lexeme.sqrt_mem_name hc
  | print => exact Scan.isSkipped_of_mem_name Lexeme.print_mem_name hc
  | operator op =>
    rw [List.mem_singleton.1 hc]
    cases op <;> rfl
  | _ =>
    rw [List.mem_singleton.1 hc]
    rfl

/-- The items of a text that begins at a column: at each place that is not blank stands the
longest lexeme, or one character of which none begins. -/
inductive Munched : Nat → List Char → List Item → Prop
  | done (column : Nat) : Munched column [] []
  | skip {column : Nat} {c : Char} {cs : List Char} {items : List Item} (hc : c = ' ' ∨ c = '\t')
      (h : Munched (column + 1) cs items) : Munched column (c :: cs) items
  | token {column : Nat} {w rest : List Char} {t : Token} {items : List Item}
      (hw : Longest (w ++ rest) w) (ht : Spells w t) (h : Munched (column + w.length) rest items) :
      Munched column (w ++ rest) (.token ⟨t, column, column + w.length⟩ :: items)
  | unknown {column : Nat} {c : Char} {cs : List Char} {items : List Item}
      (hs : c ≠ ' ' ∧ c ≠ '\t') (hc : ∀ v, v <+: c :: cs → ¬ IsLexeme v)
      (h : Munched (column + 1) cs items) :
      Munched column (c :: cs) (.unknown ⟨c, column⟩ :: items)

namespace Scan

theorem itemsFrom_covered (column : Nat) (w rest : List Char) :
    itemsFrom column w.length (w ++ rest) = itemsFrom (column + w.length) 0 rest := by
  induction w generalizing column with
  | nil => rfl
  | cons c w ih =>
    rw [List.length_cons, List.cons_append, itemsFrom, ih]
    congr 1
    omega

theorem itemsFrom_skip {c : Char} (h : isSkipped c = true) (column : Nat) (cs : List Char) :
    itemsFrom column 0 (c :: cs) = itemsFrom (column + 1) 0 cs := by
  rw [itemsFrom, if_pos h]

theorem itemsFrom_token {w rest : List Char} {t : Token} (hs : Spells w t)
    (h : Token.first? (w ++ rest) = some (t, w.length)) (column : Nat) :
    itemsFrom column 0 (w ++ rest) =
      .token ⟨t, column, column + w.length⟩ :: itemsFrom (column + w.length) 0 rest := by
  obtain ⟨c, v, rfl⟩ := List.exists_cons_of_ne_nil hs.ne_nil
  have hc : isSkipped c = false := hs.isSkipped_eq_false (by simp)
  have hcovered := itemsFrom_covered (column + 1) v rest
  rw [List.cons_append] at h ⊢
  rw [itemsFrom, if_neg (by simp [hc]), h]
  simp only [List.length_cons, Nat.add_sub_cancel, hcovered]
  congr 2
  omega

theorem itemsFrom_unknown {c : Char} {cs : List Char} (hs : isSkipped c = false)
    (h : Token.first? (c :: cs) = none) (column : Nat) :
    itemsFrom column 0 (c :: cs) = .unknown ⟨c, column⟩ :: itemsFrom (column + 1) 0 cs := by
  rw [itemsFrom, if_neg (by simp [hs]), h]

end Scan

theorem Token.first?_of_not_isLexeme {cs : List Char}
    (h : ∀ v, v <+: cs → ¬ IsLexeme v) : first? cs = none := by
  cases hfirst : first? cs with
  | none => rfl
  | some r =>
    obtain ⟨w, rest, rfl, -, hs⟩ := spells_of_first? hfirst
    exact absurd (isLexeme_iff.2 ⟨_, hs⟩) (h w (List.prefix_append w rest))

theorem Munched.itemsFrom_eq {column : Nat} {cs : List Char} {items : List Item}
    (h : Munched column cs items) : Scan.itemsFrom column 0 cs = items := by
  induction h with
  | done column => rfl
  | skip hc h ih => rw [Scan.itemsFrom_skip (Scan.isSkipped_iff.2 hc), ih]
  | token hw ht h ih => rw [Scan.itemsFrom_token ht (Token.first?_of_longest hw ht), ih]
  | unknown hs hc h ih =>
    rw [Scan.itemsFrom_unknown (Scan.isSkipped_of_ne hs.1 hs.2) (Token.first?_of_not_isLexeme hc),
      ih]

theorem munched_itemsFrom (column : Nat) (cs : List Char) :
    Munched column cs (Scan.itemsFrom column 0 cs) := by
  -- By the length of the text: a token may take any number of its characters.
  induction hn : cs.length using Nat.strongRecOn generalizing column cs with
  | ind n ih =>
    cases cs with
    | nil => exact .done column
    | cons c cs =>
      have hshort := ih cs.length (by simp [← hn]) (column + 1) cs rfl
      cases hs : Scan.isSkipped c with
      | true =>
        rw [Scan.itemsFrom_skip hs]
        exact .skip (Scan.isSkipped_iff.1 hs) hshort
      | false =>
        cases hfirst : Token.first? (c :: cs) with
        | none =>
          rw [Scan.itemsFrom_unknown hs hfirst]
          have hne : c ≠ ' ' ∧ c ≠ '\t' := by simpa [Scan.isSkipped] using hs
          exact .unknown hne (fun v hv => Token.first?_eq_none hfirst hv) hshort
        | some r =>
          obtain ⟨t, k⟩ := r
          obtain ⟨w, rest, hcs, rfl, ht⟩ := Token.spells_of_first? hfirst
          rw [hcs] at hfirst ⊢
          rw [Scan.itemsFrom_token ht hfirst]
          refine .token (Token.longest_of_first? hfirst).1 ht (ih rest.length ?_ _ rest rfl)
          have hlen := congrArg List.length hcs
          have hpos := List.length_pos_of_ne_nil ht.ne_nil
          rw [List.length_append, hn] at hlen
          omega

namespace Scanner

theorem seek_token {w rest : List Char} {t : Token} (hs : Spells w t)
    (h : Token.first? (w ++ rest) = some (t, w.length)) (column : Nat) (unknowns : List Unknown) :
    seek column unknowns (w ++ rest) =
      (⟨t, column, column + w.length⟩, ⟨rest, column + w.length, unknowns, false⟩) := by
  obtain ⟨c, v, rfl⟩ := List.exists_cons_of_ne_nil hs.ne_nil
  have hc : Scan.isSkipped c = false := hs.isSkipped_eq_false (by simp)
  rw [List.cons_append] at h ⊢
  rw [seek, if_neg (by simp [hc]), h]
  simp only [List.length_cons, Nat.add_sub_cancel, List.drop_left]

theorem seek_unknown {c : Char} {cs : List Char} (hs : Scan.isSkipped c = false)
    (h : Token.first? (c :: cs) = none) (column : Nat) (unknowns : List Unknown) :
    seek column unknowns (c :: cs) = seek (column + 1) (unknowns ++ [⟨c, column⟩]) cs := by
  rw [seek, if_neg (by simp [hs]), h]

theorem next_of_not_finished {s : Scanner} (h : s.finished = false) :
    s.next = (some (seek s.column s.unknowns s.rest).1, (seek s.column s.unknowns s.rest).2) := by
  rw [next, if_neg (by simp [h])]

end Scanner

/-- The items of a line are munched from it, and nothing else is. A scanner before a character
that is not blank hands out the longest lexeme there, or notes the character and goes on after
it when no lexeme begins there. -/
theorem items_munched_and_next_longest :
    (∀ (line : List Char) (items : List Item), Scan.items line = items ↔ Munched 0 line items) ∧
    ∀ (s : Scanner) (c : Char) (cs : List Char), s.finished = false → s.rest = c :: cs →
      c ≠ ' ' ∧ c ≠ '\t' →
      (∃ (w rest : List Char) (t : Token), s.rest = w ++ rest ∧ Longest s.rest w ∧ Spells w t ∧
        s.next = (some ⟨t, s.column, s.column + w.length⟩,
          ⟨rest, s.column + w.length, s.unknowns, false⟩)) ∨
      ((∀ v, v <+: s.rest → ¬ IsLexeme v) ∧
        s.next = Scanner.next ⟨cs, s.column + 1, s.unknowns ++ [⟨c, s.column⟩], false⟩) := by
  refine ⟨fun line items => ⟨?_, fun h => h.itemsFrom_eq⟩, ?_⟩
  · rintro rfl
    exact munched_itemsFrom 0 line
  · intro s c cs hf hr hs
    rw [Scanner.next_of_not_finished hf]
    cases hfirst : Token.first? s.rest with
    | some r =>
      obtain ⟨t, n⟩ := r
      obtain ⟨w, rest, hw, rfl, ht⟩ := Token.spells_of_first? hfirst
      rw [hw] at hfirst ⊢
      refine .inl ⟨w, rest, t, rfl, (Token.longest_of_first? hfirst).1, ht, ?_⟩
      rw [Scanner.seek_token ht hfirst]
    | none =>
      refine .inr ⟨fun v hv => Token.first?_eq_none hfirst hv, ?_⟩
      rw [hr] at hfirst ⊢
      rw [Scanner.seek_unknown (Scan.isSkipped_of_ne hs.1 hs.2) hfirst]
      rfl

theorem next_before_unclosed_literal :
    Longest "1.5-22.7".toList "1.5".toList ∧
      (Scanner.next ⟨"1.5-22.7".toList, 3, [], false⟩).2 = ⟨"-22.7".toList, 6, [], false⟩ := by
  have hafter : (Scanner.next ⟨"1.5-22.7".toList, 3, [], false⟩).2 =
      ⟨"-22.7".toList, 6, [], false⟩ := by decide +kernel
  refine ⟨?_, hafter⟩
  rcases items_munched_and_next_longest.2 ⟨"1.5-22.7".toList, 3, [], false⟩ '1' ".5-22.7".toList
    rfl rfl (by decide) with ⟨w, rest, t, hw, hlongest, -, hnext⟩ | ⟨hnone, -⟩
  · rw [hnext] at hafter
    have hrest : rest = "-22.7".toList := congrArg Scanner.rest hafter
    have hword : w = "1.5".toList := by
      rw [hrest] at hw
      exact List.append_cancel_right (hw.symm.trans (by decide))
    exact hword ▸ hlongest
  · exact absurd ⟨.number, by simp, by decide⟩ (hnone "1.5".toList (by decide))

end Reckon
