import Reckon.Proofs.Restore

/-! The text of code can be read back. Operators, numbers of either sign, complex literals and names
stand side by side in it, with nothing but spaces between them; a reader that takes the words one
by one gives the code again, so that no two codes have the same text. -/

set_option autoImplicit false

namespace Reckon
namespace Binary64

def infiniteChars : List Char := ['i', 'n', 'f']

def ofMagnitude? (negative : Bool) (cs : List Char) : Option Binary64 :=
  if cs = infiniteChars then some (.infinite negative) else ofUnsigned? negative cs

def ofChars? : List Char → Option Binary64
  | [] => none
  | c :: cs =>
    if c = '-' then ofMagnitude? true cs
    else if c = '+' then ofMagnitude? false cs
    else ofMagnitude? false (c :: cs)

theorem mem_numeral_of_ofMagnitude? {negative : Bool} {cs : List Char} {x : Binary64}
    (h : ofMagnitude? negative cs = some x) :
    cs = infiniteChars ∨ cs ∈ Pattern.numeral.matches' := by
  rw [ofMagnitude?] at h
  split at h
  · exact .inl ‹_›
  · exact .inr (mem_numeral_of_ofUnsigned? h)

theorem ofMagnitude?_abs {x : Binary64} (h : x.isNan = false) :
    ofMagnitude? x.isNegative x.abs.chars = some x := by
  cases x with
  | nan => cases h
  | infinite negative => rfl
  | finite negative units hs =>
    have hread := ofUnsigned?_magnitudeChars negative hs
    have hne : magnitudeChars units ≠ infiniteChars := by
      intro he
      rw [he] at hread
      cases hread
    exact (if_neg hne).trans hread

theorem plain_of_mem_magnitude {negative : Bool} {cs : List Char} {x : Binary64}
    (h : ofMagnitude? negative cs = some x) {c : Char} (hc : c ∈ cs) :
    Complex.isSign c = false ∧ c ≠ 'j' := by
  rcases mem_numeral_of_ofMagnitude? h with rfl | hmem
  · have hall : infiniteChars.all (fun c => !Complex.isSign c && c != 'j') = true := by decide
    simpa using List.all_eq_true.1 hall c hc
  · have hp : c ≠ '+' := Pattern.ne_of_mem_numeral hmem hc rfl (by decide)
    have hm : c ≠ '-' := Pattern.ne_of_mem_numeral hmem hc rfl (by decide)
    exact ⟨by simp [Complex.isSign, hp, hm], Pattern.ne_of_mem_numeral hmem hc rfl (by decide)⟩

theorem ofChars?_of_plain {cs : List Char} (h : ∀ c ∈ cs, Complex.isSign c = false) :
    ofChars? cs = ofMagnitude? false cs := by
  cases cs with
  | nil => rfl
  | cons c cs =>
    have hc := h c List.mem_cons_self
    have hm : c ≠ '-' := by
      rintro rfl
      cases hc
    have hp : c ≠ '+' := by
      rintro rfl
      cases hc
    rw [ofChars?, if_neg hm, if_neg hp]

theorem chars_eq_abs {x : Binary64} (h : x.isNan = false) :
    x.chars = (if x.isNegative then ['-'] else []) ++ x.abs.chars := by
  cases x with
  | nan => cases h
  | _ => rfl

theorem ofChars?_signed {x : Binary64} (h : x.isNan = false) :
    ofChars? ((if x.isNegative then '-' else '+') :: x.abs.chars) = some x := by
  have hread := ofMagnitude?_abs h
  cases hn : x.isNegative with
  | true =>
    rw [hn] at hread
    exact hread
  | false =>
    rw [hn] at hread
    exact hread

theorem ofChars?_chars {x : Binary64} (h : x.isNan = false) : ofChars? x.chars = some x := by
  have hread := ofMagnitude?_abs h
  rw [chars_eq_abs h]
  cases hn : x.isNegative with
  | true =>
    rw [hn] at hread
    exact hread
  | false =>
    rw [hn] at hread
    exact (ofChars?_of_plain fun c hc => (plain_of_mem_magnitude hread hc).1).trans hread

theorem ofChars?_of_mem {cs : List Char} (h : 'j' ∈ cs) : ofChars? cs = none := by
  have hnone : ∀ negative ds, 'j' ∈ ds → ofMagnitude? negative ds = none := by
    intro negative ds hj
    rw [Option.eq_none_iff_forall_ne_some]
    intro x hx
    exact (plain_of_mem_magnitude hx hj).2 rfl
  cases cs with
  | nil => rfl
  | cons c cs =>
    rw [ofChars?]
    split
    · exact hnone _ _ (by simpa [‹c = '-'›] using h)
    · split
      · exact hnone _ _ (by simpa [‹c = '+'›] using h)
      · exact hnone _ _ h

end Binary64

namespace Complex

def ofChars? (cs : List Char) : Option Complex :=
  if cs.getLast? = some 'j' then do
    let (re, im) ← cutAtLastSign? cs.dropLast
    return ⟨← Binary64.ofChars? re, ← Binary64.ofChars? im⟩
  else none

theorem ofChars?_literalChars {z : Complex} (hre : z.re.isNan = false) (him : z.im.isNan = false) :
    ofChars? z.literalChars = some z := by
  have hsign : isSign (if z.im.isNegative then '-' else '+') = true := by
    cases z.im.isNegative <;> rfl
  have hplain : ∀ c ∈ z.im.abs.chars, isSign c = false := fun c hc =>
    (Binary64.plain_of_mem_magnitude (Binary64.ofMagnitude?_abs him) hc).1
  rw [ofChars?, literalChars, if_pos List.getLast?_concat, List.dropLast_concat,
    cutAtLastSign?_append hsign hplain]
  simp only [Option.bind_eq_bind, Option.bind_some, Binary64.ofChars?_chars hre,
    Binary64.ofChars?_signed him]
  rfl

theorem ofChars?_of_plain {cs : List Char} (h : ∀ c ∈ cs, isSign c = false) :
    ofChars? cs = none := by
  have hcut : cutAtLastSign? cs.dropLast = none := by
    have hdrop : cs.dropLast.reverse.dropWhile (fun c => !isSign c) = [] := by
      refine List.dropWhile_eq_nil_iff.2 fun c hc => ?_
      simp [h c (List.dropLast_subset cs (List.mem_reverse.1 hc))]
    simp only [cutAtLastSign?, hdrop]
  rw [ofChars?, hcut]
  split <;> rfl

end Complex

theorem Lexeme.isSign_of_isNamePart {c : Char} (h : isNamePart c = true) :
    Complex.isSign c = false := by
  have hp : c ≠ '+' := by
    rintro rfl
    cases h
  have hm : c ≠ '-' := by
    rintro rfl
    cases h
  simp [Complex.isSign, hp, hm]

theorem Pattern.notMem_name_of_mem_numeral {w : List Char} (h : w ∈ numeral.matches') :
    w ∉ name.matches' := by
  intro hname
  obtain ⟨c, v, rfl, hd⟩ := head_of_mem_numeral h
  obtain ⟨d, u, he, hs, -⟩ := mem_name.1 hname
  obtain ⟨rfl, -⟩ := List.cons.inj he
  rw [Lexeme.isDigit_of_isNameStart hs] at hd
  cases hd

namespace Instr

def fixed : List Instr := .negate :: .root :: Operator.all.map .binary

/-- Reads a word: a fixed text, a number, a complex literal, and else a name. -/
def ofChars (cs : List Char) : Instr :=
  match fixed.find? fun i => i.chars == cs with
  | some i => i
  | none =>
    match Binary64.ofChars? cs with
    | some x => .real x
    | none =>
      match Complex.ofChars? cs with
      | some z => .complex z
      | none => .load (String.ofList cs)

/-- A number is one, and a name is not the text of another instruction. -/
def Legible : Instr → Prop
  | real x => x.isNan = false
  | complex z => z.re.isNan = false ∧ z.im.isNan = false
  | load name => name.toList ∈ Pattern.name.matches' ∧ name ∉ ["neg", "sqrt", "inf"]
  | negate | root | binary _ => True

instance : DecidablePred Legible
  | real x => inferInstanceAs (Decidable (x.isNan = false))
  | complex z => inferInstanceAs (Decidable (z.re.isNan = false ∧ z.im.isNan = false))
  | load name => inferInstanceAs
      (Decidable (name.toList ∈ Pattern.name.matches' ∧ name ∉ ["neg", "sqrt", "inf"]))
  | negate | root | binary _ => inferInstanceAs (Decidable True)

theorem find?_fixed_eq_none {α : Type} (read : List Char → Option α)
    (hread : fixed.all (fun i => (read i.chars).isNone) = true) {cs : List Char} {a : α}
    (h : read cs = some a) : fixed.find? (fun i => i.chars == cs) = none := by
  rw [List.find?_eq_none]
  intro i hi he
  have hnone := List.all_eq_true.1 hread i hi
  rw [eq_of_beq he, h] at hnone
  cases hnone

theorem ofChars_real {x : Binary64} (h : x.isNan = false) : ofChars x.chars = .real x := by
  have hread := Binary64.ofChars?_chars h
  have hfixed := find?_fixed_eq_none Binary64.ofChars? (by decide) hread
  simp only [ofChars, hfixed, hread]

theorem ofChars_complex {z : Complex} (hre : z.re.isNan = false) (him : z.im.isNan = false) :
    ofChars z.literalChars = .complex z := by
  have hread := Complex.ofChars?_literalChars hre him
  have hfixed := find?_fixed_eq_none Complex.ofChars? (by decide) hread
  have hj : 'j' ∈ z.literalChars := by simp [Complex.literalChars]
  simp only [ofChars, hfixed, Binary64.ofChars?_of_mem hj, hread]

theorem find?_fixed_of_mem_name {name : String} (h : (load name).Legible) :
    fixed.find? (fun i => i.chars == name.toList) = none := by
  have hwords : fixed.all (fun i => decide (i.chars ∈ Pattern.name.matches' →
      String.ofList i.chars ∈ ["neg", "sqrt", "inf"])) = true := by decide
  rw [List.find?_eq_none]
  intro i hi he
  have hword := of_decide_eq_true (List.all_eq_true.1 hwords i hi)
  rw [eq_of_beq he, String.ofList_toList] at hword
  exact h.2 (hword h.1)

theorem ofChars_load {name : String} (h : (load name).Legible) :
    ofChars name.toList = .load name := by
  have hplain : ∀ c ∈ name.toList, Complex.isSign c = false := fun c hc =>
    Lexeme.isSign_of_isNamePart (Lexeme.isNamePart_of_mem_name h.1 c hc)
  have hreal : Binary64.ofChars? name.toList = none := by
    rw [Binary64.ofChars?_of_plain hplain, Option.eq_none_iff_forall_ne_some]
    intro x hx
    rcases Binary64.mem_numeral_of_ofMagnitude? hx with hinf | hnumeral
    · have hname : name = "inf" := String.toList_injective hinf
      exact h.2 (by simp [hname])
    · exact Pattern.notMem_name_of_mem_numeral hnumeral h.1
  have hfixed := find?_fixed_of_mem_name h
  have hcomplex := Complex.ofChars?_of_plain hplain
  simp only [ofChars, hfixed, hreal, hcomplex, String.ofList_toList]

theorem ofChars_chars {i : Instr} (h : i.Legible) : ofChars i.chars = i := by
  cases i with
  | real x => exact ofChars_real h
  | complex z => exact ofChars_complex h.1 h.2
  | load name => exact ofChars_load h
  | negate => decide
  | root => decide
  | binary op => cases op <;> decide

theorem chars_ne_nil {i : Instr} (h : i.Legible) : i.chars ≠ [] := by
  intro he
  have hread := ofChars_chars h
  rw [he] at hread
  rw [← hread] at h
  exact absurd h (by decide)

theorem space_notMem_chars {i : Instr} (h : i.Legible) : ' ' ∉ i.chars := by
  intro hc
  have hlt : ' '.toNat < 40 := by decide
  cases i with
  | real x =>
    have hle := Binary64.le_of_mem_chars hc
    omega
  | complex z =>
    have hmem : ' ' ∈ (Value.complex z).chars :=
      List.mem_cons_of_mem _ (List.mem_append_left _ hc)
    have hle := Value.le_of_mem_chars hmem
    omega
  | load name =>
    have hle := Lexeme.le_of_isNamePart (Lexeme.isNamePart_of_mem_name h.1 _ hc)
    omega
  | negate => exact absurd hc (by decide)
  | root => exact absurd hc (by decide)
  | binary op =>
    cases op
    all_goals exact absurd hc (by decide)

end Instr

namespace Code

def ofChars (cs : List Char) : Code := if cs = [] then [] else (cs.splitOn ' ').map Instr.ofChars

theorem ofChars_chars {code : Code} (h : ∀ i ∈ code, i.Legible) : ofChars code.chars = code := by
  cases code with
  | nil => rfl
  | cons i code =>
    have hwords : ∀ w ∈ (i :: code).map Instr.chars, ' ' ∉ w := by
      intro w hw
      obtain ⟨j, hj, rfl⟩ := List.mem_map.1 hw
      exact Instr.space_notMem_chars (h j hj)
    have hne : chars (i :: code) ≠ [] := by
      have hi := Instr.chars_ne_nil (h i List.mem_cons_self)
      cases code with
      | nil => simpa [chars] using hi
      | cons j code => simp [chars]
    rw [ofChars, if_neg hne, chars, List.splitOn_intercalate ' ' hwords (by simp), List.map_map]
    exact (List.map_congr_left fun j hj => Instr.ofChars_chars (h j hj)).trans (List.map_id _)

/-- Legible codes with the same text are the same, their numbers bit for bit. -/
theorem text_eq_iff {c d : Code} (hc : ∀ i ∈ c, i.Legible) (hd : ∀ i ∈ d, i.Legible) :
    c.text = d.text ↔ c = d := by
  constructor
  · intro h
    have hchars : c.chars = d.chars := String.ofList_injective h
    have hread := congrArg ofChars hchars
    rwa [ofChars_chars hc, ofChars_chars hd] at hread
  · exact congrArg text

theorem text_ne_of_signs :
    let c : Code := [.complex ⟨-0, .infinite true⟩, .load "j", .binary .minus]
    let d : Code := [.complex ⟨0, .infinite true⟩, .load "j", .binary .minus]
    c.text = "-0-infj j -" ∧ d.text = "0-infj j -" ∧ (∀ i ∈ c ++ d, i.Legible) ∧
      c.text ≠ d.text := by
  intro c d
  have hc : ∀ i ∈ c, i.Legible := by decide +kernel
  have hd : ∀ i ∈ d, i.Legible := by decide +kernel
  refine ⟨by decide +kernel, by decide +kernel, List.forall_mem_append.2 ⟨hc, hd⟩, ?_⟩
  exact (text_eq_iff hc hd).not.2 (by decide +kernel)

end Code
end Reckon
