import Reckon.Cli
import Reckon.Proofs.Attribution
import Reckon.Proofs.Image
import Reckon.Proofs.LineFeeds

/-! Writing a store out and reading it back. Every name in a store can be written, and so can
every finite value; a negative real comes back through its negation and a complex number through
its literal. The lines that echo the assignments, run in an empty session, make the same store. -/

set_option autoImplicit false

namespace Reckon

theorem Text.le_of_all {n : Nat} {cs : List Char} (h : cs.all (n ≤ ·.toNat) = true) {c : Char}
    (hc : c ∈ cs) : n ≤ c.toNat := of_decide_eq_true (List.all_eq_true.1 h c hc)

namespace Binary64

theorem isNan_of_isFinite {x : Binary64} (h : x.isFinite = true) : x.isNan = false := by
  cases x with
  | finite negative units hs => rfl
  | _ => cases h

theorem chars_of_isFinite {x : Binary64} (h : x.isFinite = true) :
    x.chars = (if x.isNegative then ['-'] else []) ++ x.unsignedChars := by
  cases x with
  | finite negative units hs => rfl
  | _ => cases h

theorem chars_abs_of_isFinite {x : Binary64} (h : x.isFinite = true) :
    x.abs.chars = x.unsignedChars := by
  cases x with
  | finite negative units hs => rfl
  | _ => cases h

theorem isNegative_neg {x : Binary64} (h : x.isNan = false) : (-x).isNegative = !x.isNegative := by
  cases x with
  | nan => cases h
  | _ => rfl

theorem isNan_neg (x : Binary64) : (-x).isNan = x.isNan := by cases x <;> rfl

theorem unsignedChars_neg (x : Binary64) : (-x).unsignedChars = x.unsignedChars := by
  cases x <;> rfl

theorem le_of_mem_numeral {w : List Char} (h : w ∈ Pattern.numeral.matches') {c : Char}
    (hc : c ∈ w) : 46 ≤ c.toNat := by
  rcases Pattern.isDigit_or_point h hc with hd | rfl
  · rw [Pattern.isDigit_eq] at hd
    have := of_decide_eq_true hd
    omega
  · decide

theorem le_of_mem_chars {x : Binary64} {c : Char} (h : c ∈ x.chars) : 43 ≤ c.toNat := by
  cases x with
  | nan =>
    have hall : nan.chars.all (43 ≤ ·.toNat) = true := by decide
    exact Text.le_of_all hall h
  | infinite negative =>
    have hall : (infinite negative).chars.all (43 ≤ ·.toNat) = true := by cases negative <;> decide
    exact Text.le_of_all hall h
  | finite negative units hs =>
    rcases List.mem_append.1 h with h | h
    · have hall : (chars.signChars negative).all (43 ≤ ·.toNat) = true := by
        cases negative <;> decide
      exact Text.le_of_all hall h
    · have := le_of_mem_numeral (mem_numeral_of_ofUnsigned? (ofUnsigned?_magnitudeChars false hs)) h
      omega

end Binary64

namespace Value

def isFinite : Value → Bool
  | real x => x.isFinite
  | complex z => z.re.isFinite && z.im.isFinite

theorem le_of_mem_chars {v : Value} {c : Char} (h : c ∈ v.chars) : 40 ≤ c.toNat := by
  cases v with
  | real x =>
    have := Binary64.le_of_mem_chars (x := x) h
    omega
  | complex z =>
    simp only [chars, Complex.chars, Complex.literalChars, List.mem_cons, List.mem_append,
      List.not_mem_nil, or_false] at h
    rcases h with (rfl | ((h | h | h) | rfl)) | rfl
    · decide
    · have := Binary64.le_of_mem_chars h
      omega
    · split at h <;> simp [h]
    · have := Binary64.le_of_mem_chars h
      omega
    · decide
    · decide

/-- How a value is written: a minus in front of a negative real, parentheses around a complex
literal. -/
def phrase : Value → Phrase .sum
  | real x =>
    if x.isNegative then .ofProduct (.ofUnary (.negate (.ofPrimary (.number (-x)))))
    else (Phrase.number x).whole
  | complex z => (Phrase.group (Phrase.complex z).whole).whole

theorem eval_phrase (v : Value) (store : Store) : v.phrase.expr.eval store = (.ok v, []) := by
  cases v with
  | real x =>
    rw [phrase]
    split
    · show (Except.ok (real (- -x)), []) = _
      rw [Binary64.neg_neg]
    · rfl
  | complex z => rfl

end Value

namespace Token

theorem spelling_complex {z : Complex} (hre : z.re.isFinite = true) (him : z.im.isFinite = true) :
    (complex z).spelling = z.literalChars := by
  rw [spelling, Complex.literalChars, Binary64.chars_of_isFinite hre,
    Binary64.chars_abs_of_isFinite him]

theorem first?_leftParen (rest : List Char) : first? ('(' :: rest) = some (.leftParen, 1) := by
  have hcomplex := Lexeme.complex?_of_isDigit_eq_false (c := '(') rfl (by decide) rest
  have hnumeral := Lexeme.numeral?_of_isDigit_eq_false (c := '(') rfl rest
  rw [first?, hcomplex, hnumeral]
  rfl

/-- A minus before a numeral with nothing after it stands alone: there is no second sign. -/
theorem first?_minus {w : List Char} (h : w ∈ Pattern.numeral.matches') :
    first? ('-' :: w) = some (.operator .minus, 1) := by
  have hcomplex : Lexeme.complex? ('-' :: w) = none := by
    rw [Lexeme.complex?, if_pos rfl, Option.map_eq_none_iff]
    cases hread : Lexeme.unsignedComplex? w with
    | none => rfl
    | some n =>
      obtain ⟨re, sign, im, rest, rfl, -, -, -, -⟩ := Lexeme.mem_numeral_of_unsignedComplex? hread
      have hj : 'j' ∈ re ++ sign :: (im ++ 'j' :: rest) := by simp
      exact absurd rfl (Pattern.ne_of_mem_numeral h hj rfl (by decide))
  have hnumeral := Lexeme.numeral?_of_isDigit_eq_false (c := '-') rfl w
  rw [first?, hcomplex, hnumeral]
  rfl

end Token

namespace Scan

theorem itemsFrom_last {w : List Char} {t : Token} (h : Spells w t) (column : Nat) :
    itemsFrom column 0 w = [.token ⟨t, column, column + w.length⟩] := by
  have hitems := itemsFrom_of_spells h (show ∀ c ∈ [].head?, isSkipped c = true by simp) column
  rwa [List.append_nil] at hitems

theorem itemsFrom_negated {w : List Char} {x : Binary64} (hw : w ∈ Pattern.numeral.matches')
    (h : Spells w (.number x)) (column : Nat) :
    itemsFrom column 0 ('-' :: w) = [.token ⟨.operator .minus, column, column + 1⟩,
      .token ⟨.number x, column + 1, column + 1 + w.length⟩] := by
  have hminus : itemsFrom column 0 (['-'] ++ w) = _ :=
    itemsFrom_token (.operator .minus) (Token.first?_minus hw) column
  rw [itemsFrom_last h] at hminus
  exact hminus

theorem itemsFrom_inParens {w : List Char} {z : Complex} (h : Spells w (.complex z))
    (column : Nat) :
    itemsFrom column 0 ('(' :: w ++ [')']) = [.token ⟨.leftParen, column, column + 1⟩,
      .token ⟨.complex z, column + 1, column + 1 + w.length⟩,
      .token ⟨.rightParen, column + 1 + w.length, column + 1 + w.length + 1⟩] := by
  have hopen : itemsFrom column 0 (['('] ++ (w ++ [')'])) = _ :=
    itemsFrom_token .leftParen (Token.first?_leftParen _) column
  rw [itemsFrom_token h (Token.first?_of_spells_complex h [')']), itemsFrom_last .rightParen]
    at hopen
  exact hopen

/-- The text of a finite value is scanned as the words of its phrase. -/
theorem itemsFrom_chars {v : Value} (h : v.isFinite = true) (column : Nat) :
    ∃ found : List Spanned, found.map Spanned.token = v.phrase.tokens ∧
      itemsFrom column 0 v.chars = found.map .token := by
  cases v with
  | real x =>
    have hnan := Binary64.isNan_of_isFinite h
    have hchars : (Value.real x).chars = _ := Binary64.chars_of_isFinite h
    have hmem : x.unsignedChars ∈ Pattern.numeral.matches' :=
      Binary64.mem_numeral_of_ofUnsigned? (Binary64.ofUnsigned?_unsignedChars hnan)
    rw [hchars, Value.phrase]
    cases hneg : x.isNegative with
    | false =>
      have hwritable : (Token.number x).Writable := ⟨hnan, hneg⟩
      have hs : Spells x.unsignedChars (.number x) := Token.spells_spelling hwritable
      exact ⟨[⟨.number x, column, _⟩], rfl, itemsFrom_last hs column⟩
    | true =>
      have hwritable : (Token.number (-x)).Writable :=
        ⟨(Binary64.isNan_neg x).trans hnan, by rw [Binary64.isNegative_neg hnan, hneg]; rfl⟩
      have hs : Spells x.unsignedChars (.number (-x)) := by
        rw [← Binary64.unsignedChars_neg]
        exact Token.spells_spelling hwritable
      exact ⟨[⟨.operator .minus, column, _⟩, ⟨.number (-x), column + 1, _⟩], rfl,
        itemsFrom_negated hmem hs column⟩
  | complex z =>
    obtain ⟨hre, him⟩ := Bool.and_eq_true_iff.1 h
    have hs : Spells z.literalChars (.complex z) := by
      rw [← Token.spelling_complex hre him]
      exact Token.spells_spelling ⟨Binary64.isNan_of_isFinite hre, Binary64.isNan_of_isFinite him⟩
    exact ⟨[⟨.leftParen, column, _⟩, ⟨.complex z, column + 1, _⟩, ⟨.rightParen, _, _⟩], rfl,
      itemsFrom_inParens hs column⟩

end Scan

def Entry.line (e : Entry) : String := e.1 ++ " = " ++ e.2.text

theorem Entry.toList_line (e : Entry) :
    (Entry.line e).toList = e.1.toList ++ ' ' :: '=' :: ' ' :: e.2.chars := by
  simp [Entry.line, Value.text]

theorem Sentence.interpret_assign {store : Store} {name : String} {e : Phrase .sum} {v : Value}
    (h : e.expr.eval store = (.ok v, [])) (log : List Diagnostic) :
    (Sentence.assign name e).interpret store log =
      ⟨.ok (.assigned name v), store.set name v, log⟩ := by
  have hexpr : (Sentence.assign name e).expr.eval store = (.ok v, []) := h
  unfold interpret
  rw [hexpr]
  simp only [List.append_nil]

theorem runLine_line {e : Entry} (hname : (Token.name e.1).Writable) (hv : e.2.isFinite = true)
    (store : Store) : runLine store [] (Entry.line e).toList =
      ⟨.ok (.assigned e.1 e.2), store.set e.1 e.2, []⟩ := by
  obtain ⟨found, hfound, hvalue⟩ := Scan.itemsFrom_chars hv (e.1.toList.length + 1 + 1 + 1)
  have hs : Spells e.1.toList (.name e.1) := Token.spells_spelling hname
  have hword : Scan.itemsFrom 0 0 (e.1.toList ++ ' ' :: '=' :: ' ' :: e.2.chars) = _ :=
    Scan.itemsFrom_of_spells hs (by simp [Scan.isSkipped]) 0
  have hassign : Scan.itemsFrom (e.1.toList.length + 1) 0 (['='] ++ ' ' :: e.2.chars) = _ :=
    Scan.itemsFrom_of_spells .assign (by simp [Scan.isSkipped]) _
  have hitems : Scan.items (Entry.line e).toList = List.map .token
      (⟨.name e.1, 0, e.1.toList.length⟩ ::
        ⟨.assign, e.1.toList.length + 1, e.1.toList.length + 1 + 1⟩ :: found) := by
    rw [Scan.items, Entry.toList_line, hword, Nat.zero_add, Scan.itemsFrom_skip rfl]
    refine congrArg (_ :: ·) (hassign.trans ?_)
    rw [List.length_singleton, Scan.itemsFrom_skip rfl, hvalue]
    rfl
  obtain ⟨hunknowns, hline⟩ := Scan.ofLine_of_items (d := .assign e.1 e.2.phrase) hitems
    (by rw [List.map_cons, List.map_cons, hfound]; rfl)
  rw [Statement.runLine_of_ofLine hline, hunknowns, Sentence.run_statement]
  exact Sentence.interpret_assign (e.2.eval_phrase store) []

/-- If a name is assigned to, it is one that a line can hold. -/
def LineResult.Named (r : LineResult) : Prop :=
  ∀ name v, r = .ok (.assigned name v) → (Token.name name).Writable

theorem LineResult.named_runLine (store : Store) (log : List Diagnostic) (line : List Char) :
    LineResult.Named (runLine store log line).result := by
  intro name v h
  cases hs : Statement.ofLine line with
  | error e =>
    rw [runLine] at h
    split at h
    · cases h
    · rw [hs] at h
      cases h
  | ok s =>
    obtain ⟨d, hd, rfl⟩ := Statement.exists_sentence_of_ofLine hs
    rw [Statement.runLine_of_ofLine hs, Sentence.run_statement, Sentence.interpret] at h
    split at h
    · cases h
    · cases d with
      | print e => cases h
      | assign text e =>
        cases h
        have hmem : .name name ∈ (Scan.words line).map Spanned.token := by
          rw [← hd]
          exact List.mem_cons_self
        obtain ⟨t, ht, htoken⟩ := List.mem_map.1 hmem
        exact htoken ▸ Scan.writable_of_mem_words ht

namespace Store

def Named (store : Store) : Prop := ∀ e ∈ store.entries, (Token.name e.1).Writable

theorem named_runLine (store : Store) (log : List Diagnostic) (line : List Char)
    (h : store.Named) : (runLine store log line).store.Named := by
  rw [runLine_store]
  cases hr : LineResult.assigned? (runLine store log line).result with
  | none => exact h
  | some assigned =>
    obtain ⟨name, v⟩ := assigned
    have hresult : (runLine store log line).result = .ok (.assigned name v) := by
      unfold LineResult.assigned? at hr
      split at hr
      · rename_i hok
        cases hr
        exact hok
      · cases hr
    intro e he
    rcases mem_insertEntry he with rfl | he
    · exact LineResult.named_runLine store log line name v hresult
    · exact h e he

def dump (store : Store) : List Char :=
  ['\n'].intercalate (store.entries.map fun e => (Entry.line e).toList)

theorem insertEntry_of_forall_lt {name : String} {value : Value} {entries : List Entry}
    (h : ∀ e ∈ entries, e.1 < name) :
    insertEntry name value entries = entries ++ [(name, value)] := by
  induction entries with
  | nil => rfl
  | cons a rest ih =>
    obtain ⟨ha, hrest⟩ := List.forall_mem_cons.1 h
    have hnot : ¬ name < a.1 := String.lt_asymm ha
    have hne : name ≠ a.1 := by
      rintro rfl
      exact hnot ha
    rw [insertEntry, if_neg hnot, if_neg hne, ih hrest, List.cons_append]

def setAll (store : Store) (entries : List Entry) : Store :=
  entries.foldl (fun store e => store.set e.1 e.2) store

theorem entries_setAll {store : Store} {entries : List Entry}
    (h : Increasing (store.entries ++ entries)) :
    (store.setAll entries).entries = store.entries ++ entries := by
  induction entries generalizing store with
  | nil => simp [setAll]
  | cons e rest ih =>
    have hlt : ∀ a ∈ store.entries, a.1 < e.1 := by
      intro a ha
      exact (List.pairwise_append.1 h).2.2 a ha e List.mem_cons_self
    have hset : (store.set e.1 e.2).entries = store.entries ++ [e] := insertEntry_of_forall_lt hlt
    have horder : Increasing ((store.set e.1 e.2).entries ++ rest) := by
      rw [hset]
      simpa using h
    have hnext := ih horder
    rw [hset, List.append_assoc] at hnext
    exact hnext

theorem setAll_entries (store : Store) : empty.setAll store.entries = store := by
  obtain ⟨entries, hentries⟩ := store
  have h : (empty.setAll entries).entries = entries := entries_setAll hentries
  generalize empty.setAll entries = filled at h
  cases filled
  cases h
  rfl

end Store

namespace Text

/-- Lines that can be told apart are the lines of the text that they make. -/
theorem lines_intercalate {ls : List (List Char)}
    (h : ∀ l ∈ ls, l ≠ [] ∧ '\n' ∉ l ∧ '\r' ∉ l) : lines (['\n'].intercalate ls) = ls := by
  induction ls with
  | nil => rfl
  | cons l ls ih =>
    obtain ⟨⟨hne, hfeed, hreturn⟩, hls⟩ := List.forall_mem_cons.1 h
    cases ls with
    | nil => simp [lines_of_notMem hfeed, hne]
    | cons m ls =>
      rw [List.intercalate_cons_cons, List.append_assoc, List.singleton_append,
        lines_append hfeed, dropReturn_of_notMem hreturn, ih hls]

theorem ends_notMem {cs : List Char} (h : ∀ c ∈ cs, 32 ≤ c.toNat) : '\n' ∉ cs ∧ '\r' ∉ cs := by
  refine ⟨fun hc => ?_, fun hc => ?_⟩
  · exact absurd (h _ hc) (by decide)
  · exact absurd (h _ hc) (by decide)

end Text

theorem Lexeme.le_of_isNamePart {c : Char} (h : isNamePart c = true) : 48 ≤ c.toNat := by
  have hparts : isNamePart c = (c.isUpper || c.isLower || c.isDigit || c == '_') := rfl
  rw [hparts, Pattern.isUpper_eq, Pattern.isLower_eq, Pattern.isDigit_eq] at h
  simp only [Bool.or_eq_true, decide_eq_true_eq, beq_iff_eq] at h
  rcases h with ((h | h) | h) | rfl
  · omega
  · omega
  · omega
  · decide

theorem Lexeme.isNamePart_of_isNameStart {c : Char} (h : isNameStart c = true) :
    isNamePart c = true := by
  rw [isNameStart] at h
  rw [isNamePart, Char.isAlphanum]
  cases ha : c.isAlpha with
  | true => rfl
  | false =>
    rw [ha] at h
    simp only [Bool.false_or] at h
    simp [h]

theorem Lexeme.isNamePart_of_mem_name {w : List Char} (h : w ∈ Pattern.name.matches') :
    ∀ c ∈ w, isNamePart c = true := by
  obtain ⟨c, v, rfl, hc, hv⟩ := Pattern.mem_name.1 h
  exact List.forall_mem_cons.2 ⟨isNamePart_of_isNameStart hc, hv⟩

theorem Token.isNamePart_of_writable {name : String} (h : (Token.name name).Writable) :
    ∀ c ∈ name.toList, Lexeme.isNamePart c = true := Lexeme.isNamePart_of_mem_name h.1

theorem Entry.le_of_mem_line {e : Entry} (h : (Token.name e.1).Writable) {c : Char}
    (hc : c ∈ (Entry.line e).toList) : 32 ≤ c.toNat := by
  rw [Entry.toList_line] at hc
  simp only [List.mem_append, List.mem_cons] at hc
  rcases hc with hc | rfl | rfl | rfl | hc
  · have := Lexeme.le_of_isNamePart (Token.isNamePart_of_writable h c hc)
    omega
  · decide
  · decide
  · decide
  · have := Value.le_of_mem_chars hc
    omega

theorem Store.lines_dump {store : Store} (h : store.Named) :
    Text.lines store.dump = store.entries.map fun e => (Entry.line e).toList := by
  refine Text.lines_intercalate fun l hl => ?_
  obtain ⟨e, he, rfl⟩ := List.mem_map.1 hl
  exact ⟨by simp [Entry.toList_line], Text.ends_notMem fun c hc => Entry.le_of_mem_line (h e he) hc⟩

namespace Session

theorem reports_lines {entries : List Entry} (hnames : ∀ e ∈ entries, (Token.name e.1).Writable)
    (hvalues : ∀ e ∈ entries, e.2.isFinite = true) (store : Store) (interactive : Bool)
    (number : Nat) :
    reports ⟨store, [], interactive⟩ number (entries.map fun e => (Entry.line e).toList) =
      ((entries.zipIdx number).map fun (e, n) => ⟨n, .ok (.assigned e.1 e.2), []⟩,
        ⟨store.setAll entries, [], interactive⟩) := by
  induction entries generalizing store number with
  | nil => rfl
  | cons e entries ih =>
    obtain ⟨hname, hnames⟩ := List.forall_mem_cons.1 hnames
    obtain ⟨hvalue, hvalues⟩ := List.forall_mem_cons.1 hvalues
    rw [List.map_cons, reports_cons, report_eq, runLine_line hname hvalue, ih hnames hvalues]
    rfl

/-- The names of a session's store match the pattern of names and are not reserved. If its values
are finite, the lines that echo them, run in a fresh session, assign them one after another,
note nothing and make the same store. -/
theorem names_match_and_runScript_dump {s : Session} (h : s.Reachable) :
    (∀ e ∈ s.store.entries,
      e.1.toList ∈ Pattern.name.matches' ∧ e.1 ≠ "sqrt" ∧ e.1 ≠ "print") ∧
    (∀ e : Entry, Cli.outcome true (.assigned e.1 e.2) = [.out (Entry.line e ++ "\n")]) ∧
    ((∀ e ∈ s.store.entries, e.2.isFinite = true) → ∀ interactive : Bool,
      (Session.fresh interactive).runScript s.store.dump =
        ((s.store.entries.zipIdx 1).map fun (e, n) => ⟨n, .ok (.assigned e.1 e.2), []⟩,
          ⟨s.store, [], interactive⟩)) := by
  have hnamed : s.store.Named :=
    h.store_induction (P := Store.Named) (fun e he => absurd he List.not_mem_nil)
      Store.named_runLine
  refine ⟨hnamed, fun e => rfl, fun hfinite interactive => ?_⟩
  rw [runScript, Store.lines_dump hnamed, fresh, reports_lines hnamed hfinite,
    Store.setAll_entries]

theorem restored_negative_zero_and_complex :
    let s := (((Session.fresh true).execute "z = 2 * 1-3j".toList).2.execute "_a = -0".toList).2
    s.store.dump = "_a = -0\nz = (2-6j)".toList ∧
      (Session.fresh false).runScript s.store.dump =
        ([⟨1, .ok (.assigned "_a" (.real (-0))), []⟩,
          ⟨2, .ok (.assigned "z" (.complex ⟨2, -6⟩)), []⟩],
          ⟨s.store, [], false⟩) := by
  intro s
  have hreach : s.Reachable := .execute (.execute (.fresh true) _) _
  have hdump : s.store.dump = "_a = -0\nz = (2-6j)".toList := by decide +kernel
  have hfinite : ∀ e ∈ s.store.entries, e.2.isFinite = true := by decide +kernel
  have hentries : s.store.entries =
      [("_a", .real (-0)), ("z", .complex ⟨2, -6⟩)] := by decide +kernel
  refine ⟨hdump, ?_⟩
  rw [(names_match_and_runScript_dump hreach).2.2 hfinite false, hentries]
  rfl

end Session
end Reckon
