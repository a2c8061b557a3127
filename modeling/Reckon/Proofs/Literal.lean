import Reckon.Binary64.Numeral
import Reckon.Proofs.Pattern

/-! Literals at the head of a text. The reader of numerals takes the longest one, and a complex
literal has one length only: a sign and a `j` end its numerals, so nothing that follows can
make them longer. Every literal denotes a number. -/

set_option autoImplicit false

namespace Reckon
open RegularExpression

namespace Pattern

theorem isDigit_or_point {w : List Char} (h : w ∈ numeral.matches') {c : Char} (hc : c ∈ w) :
    c.isDigit = true ∨ c = '.' := by
  rcases mem_numeral.1 h with h | ⟨whole, fraction, rfl, hw, hf⟩
  · exact .inl ((mem_digits.1 h).2 c hc)
  · rcases List.mem_append.1 hc with hc | hc
    · exact .inl ((mem_digits.1 hw).2 c hc)
    · rcases List.mem_cons.1 hc with hc | hc
      · exact .inr hc
      · exact .inl ((mem_digits.1 hf).2 c hc)

theorem ne_of_mem_numeral {w : List Char} (h : w ∈ numeral.matches') {c d : Char} (hc : c ∈ w)
    (hd : d.isDigit = false) (hp : d ≠ '.') : c ≠ d := by
  rintro rfl
  rcases isDigit_or_point h hc with hc | hc
  · simp [hd] at hc
  · exact hp hc

theorem head_of_mem_numeral {w : List Char} (h : w ∈ numeral.matches') :
    ∃ c v, w = c :: v ∧ c.isDigit = true := by
  have hhead : ∀ u, u ∈ digits.matches' → ∀ v, ∃ c v', u ++ v = c :: v' ∧ c.isDigit = true := by
    intro u hu v
    obtain ⟨hne, hall⟩ := mem_digits.1 hu
    obtain ⟨c, u, rfl⟩ := List.exists_cons_of_ne_nil hne
    exact ⟨c, u ++ v, rfl, hall c (by simp)⟩
  rcases mem_numeral.1 h with h | ⟨whole, fraction, rfl, hw, -⟩
  · simpa using hhead w h []
  · exact hhead whole hw _

end Pattern

namespace Lexeme
open Pattern

theorem exists_digits (cs : List Char) :
    ∃ w rest, cs = w ++ rest ∧ w.length = digitCount cs ∧ ∀ c ∈ w, c.isDigit = true := by
  refine ⟨cs.takeWhile Char.isDigit, cs.dropWhile Char.isDigit, ?_, rfl, ?_⟩
  · exact (List.takeWhile_append_dropWhile).symm
  · exact fun c hc => List.all_eq_true.1 List.all_takeWhile c hc

theorem digitCount_append {w : List Char} (h : ∀ c ∈ w, c.isDigit = true) (rest : List Char) :
    digitCount (w ++ rest) = w.length + digitCount rest := by
  rw [digitCount, List.takeWhile_append_of_pos h, List.length_append, digitCount]

theorem mem_numeral_of_numeral? {cs : List Char} {n : Nat} (h : numeral? cs = some n) :
    ∃ w rest, cs = w ++ rest ∧ w.length = n ∧ w ∈ numeral.matches' := by
  obtain ⟨whole, rest, hcs, hlen, hd⟩ := exists_digits cs
  have hdrop : cs.drop (digitCount cs) = rest := by rw [← hlen, hcs, List.drop_left]
  simp only [numeral?, hdrop] at h
  split at h
  · cases h
  · rename_i hne
    have hw : whole ∈ digits.matches' := by
      refine mem_digits.2 ⟨?_, hd⟩
      rintro rfl
      exact hne hlen.symm
    have halone : some (digitCount cs) = some n →
        ∃ w rest, cs = w ++ rest ∧ w.length = n ∧ w ∈ numeral.matches' := by
      intro h
      exact ⟨whole, rest, hcs, by rw [hlen, Option.some.inj h], mem_numeral.2 (.inl hw)⟩
    split at h
    · exact halone h
    · rename_i c more
      split at h
      · rename_i hpoint
        obtain ⟨fraction, rest', hmore, hlen', hd'⟩ := exists_digits more
        have hf : fraction ∈ digits.matches' := by
          refine mem_digits.2 ⟨?_, hd'⟩
          rintro rfl
          exact hpoint.2 hlen'.symm
        refine ⟨whole ++ '.' :: fraction, rest', by simp [hcs, hpoint.1, ← hmore], ?_, ?_⟩
        · rw [← Option.some.inj h, List.length_append, List.length_cons, hlen, hlen']
          omega
        · exact mem_numeral.2 (.inr ⟨whole, fraction, rfl, hw, hf⟩)
      · exact halone h

theorem le_numeral? {w : List Char} (h : w ∈ numeral.matches') (rest : List Char) :
    ∃ n, numeral? (w ++ rest) = some n ∧ w.length ≤ n := by
  rcases mem_numeral.1 h with h | ⟨whole, fraction, rfl, hw, hf⟩
  · obtain ⟨hne, hall⟩ := mem_digits.1 h
    have hcount := digitCount_append hall rest
    have hpos := List.length_pos_of_ne_nil hne
    simp only [numeral?]
    rw [if_neg (by omega)]
    split
    · exact ⟨_, rfl, by omega⟩
    · split
      · exact ⟨_, rfl, by omega⟩
      · exact ⟨_, rfl, by omega⟩
  · obtain ⟨hne, hall⟩ := mem_digits.1 hw
    obtain ⟨hne', hall'⟩ := mem_digits.1 hf
    have hpoint : digitCount ('.' :: (fraction ++ rest)) = 0 := rfl
    have hcount := digitCount_append hall ('.' :: (fraction ++ rest))
    have hcount' := digitCount_append hall' rest
    have hpos := List.length_pos_of_ne_nil hne
    have hpos' := List.length_pos_of_ne_nil hne'
    have hdrop : (whole ++ '.' :: (fraction ++ rest)).drop (whole.length + 0) =
        '.' :: (fraction ++ rest) := List.drop_left
    rw [hpoint] at hcount
    simp only [numeral?, List.append_assoc, List.cons_append, hcount, hdrop]
    rw [if_neg (by omega), if_pos ⟨trivial, by omega⟩]
    refine ⟨_, rfl, ?_⟩
    rw [List.length_append, List.length_cons]
    omega

/-- A numeral that nothing continues is read to its end. -/
theorem numeral?_append {w rest : List Char} (h : w ∈ numeral.matches')
    (hr : ∀ c ∈ rest.head?, c.isDigit = false ∧ c ≠ '.') :
    numeral? (w ++ rest) = some w.length := by
  obtain ⟨n, hn, hle⟩ := le_numeral? h rest
  obtain ⟨v, rest', hv, hlen, hm⟩ := mem_numeral_of_numeral? hn
  rcases List.append_eq_append_iff.1 hv with ⟨more, hmore, hrest⟩ | ⟨more, hmore, -⟩
  · cases more with
    | nil =>
      rw [hn, ← hlen, hmore, List.append_nil]
    | cons c more =>
      obtain ⟨hd, hp⟩ := hr c (by simp [hrest])
      exact absurd rfl (ne_of_mem_numeral hm (by simp [hmore]) hd hp)
  · rw [hn]
    have := congrArg List.length hmore
    rw [List.length_append] at this
    rw [show n = w.length by omega]

theorem not_continues_of_isSign {c : Char} (h : Complex.isSign c = true) :
    c.isDigit = false ∧ c ≠ '.' := by
  rcases Bool.or_eq_true_iff.1 h with h | h <;> rw [eq_of_beq h] <;> decide

theorem unsignedComplex?_append {re im : List Char} {sign : Char}
    (hr : re ∈ numeral.matches') (hs : Complex.isSign sign = true) (hi : im ∈ numeral.matches')
    (rest : List Char) :
    unsignedComplex? (re ++ sign :: (im ++ 'j' :: rest)) =
      some (re.length + 1 + im.length + 1) := by
  have hre : numeral? (re ++ sign :: (im ++ 'j' :: rest)) = some re.length := by
    refine numeral?_append hr fun c hc => ?_
    rw [← Option.some.inj hc]
    exact not_continues_of_isSign hs
  have him : numeral? (im ++ 'j' :: rest) = some im.length := by
    refine numeral?_append hi fun c hc => ?_
    rw [← Option.some.inj hc]
    decide
  simp [unsignedComplex?, hre, hs, him]

theorem of_guard {p : Prop} [Decidable p] {u : Unit} (h : (guard p : Option Unit) = some u) :
    p := by
  by_cases hp : p
  · exact hp
  · rw [guard, if_neg hp] at h
    cases h

theorem mem_numeral_of_unsignedComplex? {cs : List Char} {n : Nat}
    (h : unsignedComplex? cs = some n) :
    ∃ re sign im rest, cs = re ++ sign :: (im ++ 'j' :: rest) ∧
      re.length + 1 + im.length + 1 = n ∧ re ∈ numeral.matches' ∧
      Complex.isSign sign = true ∧ im ∈ numeral.matches' := by
  unfold unsignedComplex? at h
  obtain ⟨k, hk, h⟩ := Option.bind_eq_some_iff.1 h
  obtain ⟨re, more, rfl, rfl, hre⟩ := mem_numeral_of_numeral? hk
  rw [List.drop_left] at h
  cases more with
  | nil => cases h
  | cons sign more =>
    obtain ⟨_, hs, h⟩ := Option.bind_eq_some_iff.1 h
    obtain ⟨k, hk, h⟩ := Option.bind_eq_some_iff.1 h
    obtain ⟨im, rest, rfl, rfl, him⟩ := mem_numeral_of_numeral? hk
    obtain ⟨_, hj, hn⟩ := Option.bind_eq_some_iff.1 h
    rw [List.drop_left] at hj
    obtain ⟨rest, rfl⟩ := List.head?_eq_some_iff.1 (of_guard hj)
    exact ⟨re, sign, im, rest, rfl, Option.some.inj hn, hre, of_guard hs, him⟩

theorem mem_complex_iff {w : List Char} :
    w ∈ Kind.complex.pattern.matches' ↔ ∃ re im, w = re ++ im ++ ['j'] ∧
      re ∈ realPart.matches' ∧ im ∈ imaginaryPart.matches' := by
  rw [Kind.pattern, matches'_mul, Language.mem_mul]
  constructor
  · rintro ⟨u, hu, v, hv, rfl⟩
    obtain ⟨re, hre, im, him, rfl⟩ := Language.mem_mul.1 hu
    exact ⟨re, im, by rw [show v = ['j'] from hv], hre, him⟩
  · rintro ⟨re, im, rfl, hre, him⟩
    exact ⟨re ++ im, Language.append_mem_mul hre him, ['j'], rfl, rfl⟩

theorem complex?_of_isDigit {c : Char} (h : c.isDigit = true) (cs : List Char) :
    complex? (c :: cs) = unsignedComplex? (c :: cs) := by
  have hne : c ≠ '-' := by
    rintro rfl
    cases h
  rw [complex?, if_neg hne]

/-- Whatever follows a complex literal, the literal is read. -/
theorem complex?_append {w : List Char} (h : w ∈ Kind.complex.pattern.matches')
    (rest : List Char) : complex? (w ++ rest) = some w.length := by
  obtain ⟨re, im, rfl, hre, him⟩ := mem_complex_iff.1 h
  obtain ⟨sign, num, rfl, hs, hnum⟩ := mem_imaginaryPart.1 him
  have hread : ∀ v, v ∈ numeral.matches' →
      unsignedComplex? (v ++ sign :: (num ++ 'j' :: rest)) = some (v.length + 1 + num.length + 1) :=
    fun v hv => unsignedComplex?_append hv hs hnum rest
  have htext : re ++ sign :: num ++ ['j'] ++ rest = re ++ sign :: (num ++ 'j' :: rest) := by simp
  have hlen : (re ++ sign :: num ++ ['j']).length = re.length + 1 + num.length + 1 := by
    simp only [List.length_append, List.length_cons, List.length_nil]
    omega
  rw [htext, hlen]
  rcases mem_realPart.1 hre with hv | ⟨v, rfl, hv⟩
  · obtain ⟨c, v, rfl, hc⟩ := head_of_mem_numeral hv
    rw [List.cons_append, complex?_of_isDigit hc, ← List.cons_append, hread _ hv]
  · rw [List.cons_append, complex?, if_pos rfl, hread v hv, Option.map_some, List.length_cons]
    congr 1
    omega

theorem mem_complex_of_complex? {cs : List Char} {n : Nat} (h : complex? cs = some n) :
    ∃ w rest, cs = w ++ rest ∧ w.length = n ∧ w ∈ Kind.complex.pattern.matches' := by
  have hword : ∀ {re v num rest : List Char} {sign : Char}, re ∈ realPart.matches' →
      Complex.isSign sign = true → num ∈ numeral.matches' →
      v = re ++ sign :: (num ++ 'j' :: rest) → re.length + 1 + num.length + 1 = n →
      ∃ w rest, v = w ++ rest ∧ w.length = n ∧ w ∈ Kind.complex.pattern.matches' := by
    intro re v num rest sign hre hs hnum hv hn
    refine ⟨re ++ sign :: num ++ ['j'], rest, by simp [hv], ?_, ?_⟩
    · simp only [List.length_append, List.length_cons, List.length_nil]
      omega
    · exact mem_complex_iff.2 ⟨re, sign :: num, rfl, hre,
        mem_imaginaryPart.2 ⟨sign, num, rfl, hs, hnum⟩⟩
  cases cs with
  | nil => cases h
  | cons c cs =>
    rw [complex?] at h
    split at h
    · rename_i hc
      obtain ⟨k, hk, rfl⟩ := Option.map_eq_some_iff.1 h
      obtain ⟨re, sign, num, rest, rfl, hlen, hre, hs, hnum⟩ := mem_numeral_of_unsignedComplex? hk
      refine hword (mem_realPart.2 (.inr ⟨re, rfl, hre⟩)) hs hnum (by rw [hc]; rfl) ?_
      rw [List.length_cons]
      omega
    · obtain ⟨re, sign, num, rest, hcs, hlen, hre, hs, hnum⟩ := mem_numeral_of_unsignedComplex? h
      exact hword (mem_realPart.2 (.inl hre)) hs hnum hcs hlen

end Lexeme

namespace Complex

theorem cutAtLastSign?_append {before after : List Char} {sign : Char} (hs : isSign sign = true)
    (ha : ∀ c ∈ after, isSign c = false) :
    cutAtLastSign? (before ++ sign :: after) = some (before, sign :: after) := by
  have hpass : ∀ c ∈ after.reverse, (!isSign c) = true := fun c hc => by
    simp [ha c (List.mem_reverse.1 hc)]
  have hrev : (before ++ sign :: after).reverse = after.reverse ++ sign :: before.reverse := by simp
  simp only [cutAtLastSign?, hrev, List.takeWhile_append_of_pos hpass,
    List.dropWhile_append_of_pos hpass]
  simp [hs]

theorem cutAtLastSign?_of_mem {re im : List Char} (hi : im ∈ Pattern.imaginaryPart.matches') :
    cutAtLastSign? (re ++ im) = some (re, im) := by
  obtain ⟨sign, num, rfl, hs, hnum⟩ := Pattern.mem_imaginaryPart.1 hi
  refine cutAtLastSign?_append hs fun c hc => ?_
  have hp : c ≠ '+' := Pattern.ne_of_mem_numeral hnum hc rfl (by decide)
  have hm : c ≠ '-' := Pattern.ne_of_mem_numeral hnum hc rfl (by decide)
  simp [isSign, hp, hm]

theorem ofLiteral?_append {re im : List Char} {x y : Binary64}
    (hi : im ∈ Pattern.imaginaryPart.matches') (hx : Binary64.ofNumeral? re = some x)
    (hy : Binary64.ofNumeral? im = some y) : ofLiteral? (re ++ im ++ ['j']) = some ⟨x, y⟩ := by
  rw [ofLiteral?, if_pos List.getLast?_concat, List.dropLast_concat, cutAtLastSign?_of_mem hi]
  simp only [Option.bind_eq_bind, Option.bind_some, hx, hy]
  rfl

end Complex

namespace Binary64

theorem isNan_ofRatio (negative : Bool) (num den : Nat) :
    (ofRatio negative num den).isNan = false := by
  unfold ofRatio
  split <;> rfl

theorem isNegative_ofRatio (negative : Bool) (num den : Nat) :
    (ofRatio negative num den).isNegative = negative := by
  unfold ofRatio
  split <;> rfl

theorem exists_ofUnsigned? {w : List Char} (h : w ∈ Pattern.numeral.matches')
    (negative : Bool) : ∃ x, ofUnsigned? negative w = some x := by
  rcases Pattern.mem_numeral.1 h with h | ⟨whole, fraction, rfl, hw, hf⟩
  · obtain ⟨hne, hall⟩ := Pattern.mem_digits.1 h
    exact ⟨_, ofUnsigned?_whole negative hne hall⟩
  · obtain ⟨hne, hall⟩ := Pattern.mem_digits.1 hw
    obtain ⟨hne', hall'⟩ := Pattern.mem_digits.1 hf
    exact ⟨_, ofUnsigned?_point negative hne hne' hall hall'⟩

theorem mem_numeral_of_ofUnsigned? {negative : Bool} {w : List Char} {x : Binary64}
    (h : ofUnsigned? negative w = some x) : w ∈ Pattern.numeral.matches' := by
  have hsplit : w.takeWhile Char.isDigit ++ w.dropWhile Char.isDigit = w :=
    List.takeWhile_append_dropWhile
  have hall : ∀ c ∈ w.takeWhile Char.isDigit, c.isDigit = true :=
    fun c hc => List.all_eq_true.1 List.all_takeWhile c hc
  simp only [ofUnsigned?] at h
  split at h
  · cases h
  · rename_i hne
    have hw : w.takeWhile Char.isDigit ∈ Pattern.digits.matches' :=
      Pattern.mem_digits.2 ⟨by simpa using hne, hall⟩
    split at h
    · rename_i hdrop
      rw [hdrop, List.append_nil] at hsplit
      exact Pattern.mem_numeral.2 (.inl (hsplit ▸ hw))
    · rename_i point fraction hdrop
      split at h
      · rename_i hp
        obtain ⟨rfl, hne', hall'⟩ := hp
        have hf : fraction ∈ Pattern.digits.matches' :=
          Pattern.mem_digits.2 ⟨by simpa using hne', List.all_eq_true.1 hall'⟩
        exact Pattern.mem_numeral.2 (.inr ⟨_, fraction, by rw [← hdrop, hsplit], hw, hf⟩)
      · cases h

theorem of_ofUnsigned? {negative : Bool} {w : List Char} {x : Binary64}
    (h : ofUnsigned? negative w = some x) : x.isNan = false ∧ x.isNegative = negative := by
  have hdigits : ∀ whole fraction, (ofDigits negative whole fraction).isNan = false ∧
      (ofDigits negative whole fraction).isNegative = negative :=
    fun whole fraction => ⟨isNan_ofRatio _ _ _, isNegative_ofRatio _ _ _⟩
  simp only [ofUnsigned?] at h
  split at h
  · cases h
  · split at h
    · exact Option.some.inj h ▸ hdigits _ _
    · split at h
      · exact Option.some.inj h ▸ hdigits _ _
      · cases h

theorem ofNumeral?_of_mem {w : List Char} (h : w ∈ Pattern.numeral.matches') :
    ofNumeral? w = ofUnsigned? false w := by
  obtain ⟨c, v, rfl, hc⟩ := Pattern.head_of_mem_numeral h
  exact ofNumeral?_of_isDigit hc

theorem exists_ofNumeral? {w : List Char} (h : w ∈ Pattern.numeral.matches') :
    ∃ x, ofNumeral? w = some x ∧ x.isNan = false ∧ x.isNegative = false := by
  obtain ⟨x, hx⟩ := exists_ofUnsigned? h false
  exact ⟨x, (ofNumeral?_of_mem h).trans hx, of_ofUnsigned? hx⟩

theorem exists_ofNumeral?_realPart {w : List Char} (h : w ∈ Pattern.realPart.matches') :
    ∃ x, ofNumeral? w = some x ∧ x.isNan = false := by
  rcases Pattern.mem_realPart.1 h with h | ⟨v, rfl, hv⟩
  · obtain ⟨x, hx, hnan, -⟩ := exists_ofNumeral? h
    exact ⟨x, hx, hnan⟩
  · obtain ⟨x, hx⟩ := exists_ofUnsigned? hv true
    exact ⟨x, hx, (of_ofUnsigned? hx).1⟩

theorem exists_ofNumeral?_imaginaryPart {w : List Char}
    (h : w ∈ Pattern.imaginaryPart.matches') : ∃ x, ofNumeral? w = some x ∧ x.isNan = false := by
  obtain ⟨sign, v, rfl, hs, hv⟩ := Pattern.mem_imaginaryPart.1 h
  rcases Bool.or_eq_true_iff.1 hs with hs | hs
  · rw [eq_of_beq hs]
    obtain ⟨x, hx⟩ := exists_ofUnsigned? hv false
    exact ⟨x, hx, (of_ofUnsigned? hx).1⟩
  · rw [eq_of_beq hs]
    obtain ⟨x, hx⟩ := exists_ofUnsigned? hv true
    exact ⟨x, hx, (of_ofUnsigned? hx).1⟩

end Binary64
end Reckon
