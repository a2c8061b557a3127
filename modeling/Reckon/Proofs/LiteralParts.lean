import Reckon.Proofs.Strays

/-! The two parts of a complex literal. The sign of the second part is the last sign of the literal,
whatever the lengths of its numerals, so a literal has its parts in one way only and a cut at the
last sign finds them. Both parts denote numbers, and so does every numeral: no character at which a
literal begins is ever set aside. -/

set_option autoImplicit false

namespace Reckon
open Pattern

structure Parted (w re im : List Char) : Prop where
  re_mem : re ∈ realPart.matches'
  im_mem : im ∈ imaginaryPart.matches'
  eq_append : w = re ++ im ++ ['j']

namespace Parted
variable {w re im : List Char}

theorem cut (h : Parted w re im) : Complex.cutAtLastSign? w.dropLast = some (re, im) := by
  rw [h.eq_append, List.dropLast_concat, Complex.cutAtLastSign?_of_mem h.im_mem]

/-- The cut does not look at the parts, so there is one pair of them. -/
theorem unique (h : Parted w re im) {re' im' : List Char} (h' : Parted w re' im') :
    re' = re ∧ im' = im := by
  simpa using h'.cut.symm.trans h.cut

end Parted

theorem Binary64.isNegative_of_ofNumeral? {w : List Char} {x : Binary64}
    (h : ofNumeral? w = some x) : x.isNegative = (w.head? == some '-') := by
  cases w with
  | nil => cases h
  | cons c cs =>
    have hhead : ((c :: cs).head? == some '-') = decide (c = '-') := rfl
    rw [hhead]
    by_cases hminus : c = '-'
    · rw [ofNumeral?, if_pos hminus] at h
      rw [decide_eq_true hminus]
      exact (of_ofUnsigned? h).2
    · rw [ofNumeral?, if_neg hminus] at h
      rw [decide_eq_false hminus]
      split at h
      · exact (of_ofUnsigned? h).2
      · exact (of_ofUnsigned? h).2

theorem Spells.kind_of_isDigit {w : List Char} {t : Token} (h : Spells w t) {c : Char}
    (hc : w.head? = some c) (hd : c.isDigit = true) : t.kind = .number ∨ t.kind = .complex := by
  cases h with
  | complex => exact .inr rfl
  | number => exact .inl rfl
  | name hw =>
    obtain ⟨c', v, rfl, hstart, -⟩ := mem_name.1 hw
    obtain rfl : c' = c := by simpa using hc
    rw [Lexeme.isDigit_of_isNameStart hstart] at hd
    cases hd
  | operator op =>
    obtain rfl : op.symbol = c := by simpa using hc
    cases op <;> cases hd
  | _ =>
    cases hc
    cases hd

namespace Scanner

theorem next_of_first? {s : Scanner} {w rest : List Char} {t : Token} (hf : s.finished = false)
    (hr : s.rest = w ++ rest) (hs : Spells w t)
    (h : Token.first? (w ++ rest) = some (t, w.length)) :
    s.next = (some ⟨t, s.column, s.column + w.length⟩,
      ⟨rest, s.column + w.length, s.unknowns, false⟩) := by
  rw [next_of_not_finished hf, hr, seek_token hs h]

theorem next_of_numeral {s : Scanner} {w rest : List Char} {x : Binary64}
    (hw : w ∈ numeral.matches') (hx : Binary64.ofNumeral? w = some x) (hf : s.finished = false)
    (hr : s.rest = w ++ rest) :
    ∃ (v rest' : List Char) (t : Token), w <+: v ∧ s.rest = v ++ rest' ∧
      s.next = (some ⟨t, s.column, s.column + v.length⟩,
        ⟨rest', s.column + v.length, s.unknowns, false⟩) ∧
      (t.kind = .number ∨ t.kind = .complex) ∧ (v = w → t = .number x) := by
  rcases Token.takes_numeral hw hx rest with hfirst | ⟨t, n, hfirst, hlt⟩
  · exact ⟨w, rest, .number x, List.prefix_refl w, hr,
      next_of_first? hf hr (.number hw hx) hfirst, .inl rfl, fun _ => rfl⟩
  · -- A longer lexeme begins with the same digit, which leaves two kinds for its token.
    obtain ⟨v, rest', hv, rfl, hs⟩ := Token.spells_of_first? hfirst
    have hprefix : w <+: v :=
      List.prefix_of_prefix_length_le ⟨rest, rfl⟩ ⟨rest', hv.symm⟩ (Nat.le_of_lt hlt)
    obtain ⟨c, u, rfl, hc⟩ := head_of_mem_numeral hw
    have hhead : v.head? = some c := by
      obtain ⟨more, rfl⟩ := hprefix
      rfl
    rw [hv] at hr hfirst
    refine ⟨v, rest', t, hprefix, hr, next_of_first? hf hr hs hfirst,
      hs.kind_of_isDigit hhead hc, fun heq => ?_⟩
    exact absurd hlt (by rw [heq]; exact Nat.lt_irrefl _)

end Scanner

theorem Scan.notMem_pattern_of_mem_unknowns {line : List Char} {u : Unknown}
    (hu : u ∈ unknowns line) {w : List Char} (hw : w <+: line.drop u.column) {k : Kind}
    (hk : k ≠ .ignored) : w ∉ k.pattern.matches' := fun hmem =>
  (munched_itemsFrom 0 line).not_isLexeme (by simp) (mem_unknowns.1 hu) hw ⟨k, hk, hmem⟩

/-- A complex literal has its parts in one way only, a cut at its last sign gives them, and it reads
as the numbers that they denote, each with the sign of its part. A scanner before it hands it out as
one token, and before a numeral it hands out a number or a complex literal that begins with the
numeral. No line has an unknown character at which a literal begins. -/
theorem literals_parted_once_and_taken :
    (∀ w ∈ Kind.complex.pattern.matches', ∃ (re im : List Char) (x y : Binary64),
      Parted w re im ∧ (∀ re' im', Parted w re' im' → re' = re ∧ im' = im) ∧
      Complex.cutAtLastSign? w.dropLast = some (re, im) ∧
      Binary64.ofNumeral? re = some x ∧ Binary64.ofNumeral? im = some y ∧
      x.isNegative = (re.head? == some '-') ∧ y.isNegative = (im.head? == some '-') ∧
      Complex.ofLiteral? w = some ⟨x, y⟩ ∧
      ∀ (s : Scanner) (rest : List Char), s.finished = false → s.rest = w ++ rest →
        s.next = (some ⟨.complex ⟨x, y⟩, s.column, s.column + w.length⟩,
          ⟨rest, s.column + w.length, s.unknowns, false⟩)) ∧
    (∀ w ∈ Kind.number.pattern.matches', ∃ x, Binary64.ofNumeral? w = some x ∧
      ∀ (s : Scanner) (rest : List Char), s.finished = false → s.rest = w ++ rest →
        ∃ (v rest' : List Char) (t : Token), w <+: v ∧ s.rest = v ++ rest' ∧
          s.next = (some ⟨t, s.column, s.column + v.length⟩,
            ⟨rest', s.column + v.length, s.unknowns, false⟩) ∧
          (t.kind = .number ∨ t.kind = .complex) ∧ (v = w → t = .number x)) ∧
    ∀ (line : List Char) (u : Unknown), u ∈ Scan.unknowns line → ∀ w, w <+: line.drop u.column →
      w ∉ Kind.complex.pattern.matches' ∧ w ∉ Kind.number.pattern.matches' := by
  refine ⟨fun w hw => ?_, fun w hw => ?_, fun line u hu w hw => ?_⟩
  · obtain ⟨re, im, heq, hre, him⟩ := Lexeme.mem_complex_iff.1 hw
    obtain ⟨x, hx, -⟩ := Binary64.exists_ofNumeral?_realPart hre
    obtain ⟨y, hy, -⟩ := Binary64.exists_ofNumeral?_imaginaryPart him
    have hparted : Parted w re im := ⟨hre, him, heq⟩
    have hspells : Spells w (.complex ⟨x, y⟩) := heq ▸ .complex hre him hx hy
    refine ⟨re, im, x, y, hparted, fun _ _ h => hparted.unique h, hparted.cut, hx, hy,
      Binary64.isNegative_of_ofNumeral? hx, Binary64.isNegative_of_ofNumeral? hy, ?_,
      fun s rest hf hr => ?_⟩
    · rw [heq, Complex.ofLiteral?_append him hx hy]
    · exact Scanner.next_of_first? hf hr hspells (Token.first?_of_spells_complex hspells rest)
  · obtain ⟨x, hx, -⟩ := Binary64.exists_ofNumeral? hw
    exact ⟨x, hx, fun s rest hf hr => Scanner.next_of_numeral hw hx hf hr⟩
  · exact ⟨Scan.notMem_pattern_of_mem_unknowns hu hw (by simp),
      Scan.notMem_pattern_of_mem_unknowns hu hw (by simp)⟩

theorem parted_before_second_minus :
    let w := "-1.5-22.75j".toList
    w ∈ Kind.complex.pattern.matches' ∧
      (∀ re im, Parted w re im → re = "-1.5".toList ∧ im = "-22.75".toList) ∧
      ∃ z, Complex.ofLiteral? w = some z ∧ z.re.isNegative = true ∧ z.im.isNegative = true ∧
        (Scanner.start (w ++ "-x".toList)).next.1 = some ⟨.complex z, 0, 11⟩ := by
  intro w
  have hw : w ∈ Kind.complex.pattern.matches' := by decide +kernel
  obtain ⟨re, im, x, y, -, hunique, hcut, -, -, hneg, hneg', hread, hnext⟩ :=
    literals_parted_once_and_taken.1 w hw
  have hparts : (re, im) = ("-1.5".toList, "-22.75".toList) :=
    Option.some.inj (hcut.symm.trans (by decide +kernel))
  obtain ⟨rfl, rfl⟩ := Prod.mk.inj hparts
  exact ⟨hw, hunique, ⟨x, y⟩, hread, hneg, hneg', congrArg Prod.fst (hnext _ _ rfl rfl)⟩

end Reckon
