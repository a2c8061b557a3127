import Reckon.Proofs.Parses

/-! Reading a statement is recognising a sentence of the grammar. A list of tokens is accepted
just when a sentence and the mark of the end stand at its head; the statement is then that of
the only derivation there is, and what follows the mark is left alone. -/

set_option autoImplicit false

namespace Reckon

theorem append_cons_cases {α : Type} {ws us pre rest : List α} {t : α}
    (h : ws ++ us = pre ++ t :: rest) :
    (∃ rest', ws = pre ++ t :: rest') ∨ ∃ pre', pre = ws ++ pre' ∧ us = pre' ++ t :: rest := by
  rcases List.append_eq_append_iff.1 h with ⟨pre', hpre, hus⟩ | ⟨more, hws, hmore⟩
  · exact .inr ⟨pre', hpre, hus⟩
  · cases more with
    | nil => exact .inr ⟨[], by simpa using hws.symm, by simpa using hmore.symm⟩
    | cons u more =>
      simp only [List.cons_append, List.cons.injEq] at hmore
      exact .inl ⟨more, by rw [hws, hmore.1]⟩

theorem append_singleton_cases {α : Type} {ws pre rest : List α} {u t : α}
    (h : ws ++ [u] = pre ++ t :: rest) :
    (∃ rest', ws = pre ++ t :: rest') ∨ (pre = ws ∧ t = u) := by
  rcases append_cons_cases h with hws | ⟨pre', hpre, hu⟩
  · exact .inl hws
  · cases pre' with
    | nil => simp_all
    | cons v pre' => simp at hu

namespace Reader

def assignBody : Reader := andThen (skip .assign) (andThen (climb 1) (skip .endOfInput))

def printBody : Reader :=
  andThen (skip .leftParen) (andThen (climb 1) (andThen (skip .rightParen) (skip .endOfInput)))

def sentence : Reader := fun c =>
  match c.input with
  | [] => .error ⟨.endOfInput, c⟩
  | t :: ts =>
    match t.token with
    | .name _ => assignBody ⟨ts, c.code⟩
    | .print => printBody ⟨ts, c.code⟩
    | _ => .error ⟨.ofSpanned t, ⟨ts, c.code⟩⟩

theorem sentence_name {t : Spanned} {text : String} (ht : t.token = .name text)
    (ts : List Spanned) (code : Code) :
    sentence (.ofCode (t :: ts) code) = assignBody (.ofCode ts code) := by
  simp [sentence, Cursor.ofCode, ht]

theorem sentence_print {t : Spanned} (ht : t.token = .print) (ts : List Spanned) (code : Code) :
    sentence (.ofCode (t :: ts) code) = printBody (.ofCode ts code) := by
  simp [sentence, Cursor.ofCode, ht]

end Reader

namespace Statement

def finish {α : Type} (make : Code → α) :
    Except Stop Cursor → Except SyntaxError α × List Spanned
  | .ok d => (.ok (make d.code.toList), d.input)
  | .error s => (.error s.error, s.cursor.input)

theorem finish_andThen {α : Type} (make : Code → α) (f g : Reader) (c : Cursor) :
    finish make (Reader.andThen f g c) = match finish id (f c) with
      | (.error e, rest) => (.error e, rest)
      | (.ok code, rest) => finish make (g (.ofCode rest code)) := by
  unfold Reader.andThen
  cases f c <;> rfl

theorem finish_skip {α : Type} (make : Code → α) (kind : Kind) (ts : List Spanned) (code : Code) :
    finish make (Reader.skip kind (.ofCode ts code)) = match expect kind ts with
      | (.error e, rest) => (.error e, rest)
      | (.ok _, rest) => (.ok (make code), rest) := by
  cases ts with
  | nil => rfl
  | cons t ts =>
    rw [Reader.skip_cons, expect]
    by_cases h : t.token.kind = kind <;> simp [h, finish, Cursor.ofCode]

theorem readExpression_eq (ts : List Spanned) :
    readExpression ts = finish id (Reader.climb 1 (.ofCode ts [])) := by
  have h : readExpression ts = match Reckon.climb 1 (.ofCode ts []) with
      | .error s => (.error s.error, s.cursor.input)
      | .ok ⟨c, _⟩ => (.ok c.code.toList, c.input) := rfl
  rw [h, Reader.climb]
  cases Reckon.climb 1 (.ofCode ts []) <;> rfl

theorem read_name {t : Spanned} {text : String} (ht : t.token = .name text) (ts : List Spanned) :
    read (t :: ts) = finish (.assign text) (Reader.assignBody (.ofCode ts [])) := by
  simp only [read, readForm, ht, readAssign, Reader.assignBody, finish_andThen, finish_skip]
  cases expect .assign ts with
  | mk r rest =>
    cases r with
    | error e => rfl
    | ok _ =>
      simp only [id, ← readExpression_eq]
      cases readExpression rest with
      | mk r rest =>
        cases r with
        | error e => rfl
        | ok code =>
          cases hend : expect .endOfInput rest with
          | mk r rest => cases r <;> simp [hend]

theorem read_print {t : Spanned} (ht : t.token = .print) (ts : List Spanned) :
    read (t :: ts) = finish .print (Reader.printBody (.ofCode ts [])) := by
  simp only [read, readForm, ht, readPrint, Reader.printBody, finish_andThen, finish_skip]
  cases expect .leftParen ts with
  | mk r rest =>
    cases r with
    | error e => rfl
    | ok _ =>
      simp only [id, ← readExpression_eq]
      cases readExpression rest with
      | mk r rest =>
        cases r with
        | error e => rfl
        | ok code =>
          cases hclose : expect .rightParen rest with
          | mk r rest =>
            cases r with
            | error e => simp [hclose]
            | ok _ =>
              cases hend : expect .endOfInput rest with
              | mk r rest => cases r <;> simp [hclose, hend]

def ofHead (ts : List Spanned) (code : Code) : Statement :=
  match ts.head?.map Spanned.token with
  | some (.name text) => .assign text code
  | _ => .print code

theorem read_eq_sentence (ts : List Spanned) :
    match Reader.sentence (.ofCode ts []) with
    | .ok d => read ts = (.ok (ofHead ts d.code.toList), d.input)
    | .error s => (read ts).1 = .error s.error := by
  cases ts with
  | nil => rfl
  | cons t ts =>
    cases ht : t.token with
    | name text =>
      rw [Reader.sentence_name ht, read_name ht]
      cases Reader.assignBody (.ofCode ts []) <;> simp [finish, ofHead, ht]
    | print =>
      rw [Reader.sentence_print ht, read_print ht]
      cases Reader.printBody (.ofCode ts []) <;> simp [finish, ofHead, ht]
    | _ => simp [Reader.sentence, Cursor.ofCode, ht, read, readForm]

end Statement

def Sentences : Language :=
  fun w out => ∃ d : Sentence, w = d.tokens ++ [.endOfInput] ∧ out = d.expr.code

theorem parses_assignBody (text : String) (ts : List Spanned) :
    Parses (Sentences.after [.name text] []) Reader.assignBody ts := by
  have hword : ∀ w out, Spelled 1 w out →
      Sentences (.name text :: .assign :: w ++ [.endOfInput]) out := by
    intro w out h
    obtain ⟨e, rfl, rfl⟩ := h
    exact ⟨.assign text e, rfl, rfl⟩
  refine .skipBefore .assign rfl ?_ ?_
  · exact ⟨[.number 0, .endOfInput], [.real 0], hword _ _ .zero⟩
  · intro t rest _
    refine (parses_climb 1 rest).before (Parses.skip .endOfInput rfl) ?_
    intro w out h
    simpa [Language.after] using hword w out h

theorem parses_printBody (ts : List Spanned) :
    Parses (Sentences.after [.print] []) Reader.printBody ts := by
  have hword : ∀ w out, Spelled 1 w out →
      Sentences (.print :: .leftParen :: w ++ [.rightParen, .endOfInput]) out := by
    intro w out h
    obtain ⟨e, rfl, rfl⟩ := h
    exact ⟨.print e, by simp [Sentence.tokens]; rfl, rfl⟩
  have hclose : ∀ rest, Parses (.only [.rightParen, .endOfInput] [])
      (Reader.andThen (Reader.skip .rightParen) (Reader.skip .endOfInput)) rest := by
    intro rest
    refine (Parses.skip .rightParen rfl rest).before (Parses.skip .endOfInput rfl) ?_
    intro w out hw
    obtain ⟨rfl, rfl⟩ := hw
    exact ⟨rfl, rfl⟩
  refine .skipBefore .leftParen rfl ?_ ?_
  · exact ⟨[.number 0, .rightParen, .endOfInput], [.real 0], hword _ _ .zero⟩
  · intro t rest _
    refine (parses_climb 1 rest).before hclose ?_
    intro w out h
    simpa [Language.after] using hword w out h

theorem parses_sentence (ts : List Spanned) : Parses Sentences Reader.sentence ts := by
  have hnone : Sentences.Viable [] :=
    ⟨_, _, .print (.ofProduct (.ofUnary (.ofPrimary (.number 0)))), rfl, rfl⟩
  cases ts with
  | nil => exact .short [] hnone (fun code => by simp [Reader.sentence, Cursor.ofCode])
  | cons t ts =>
    cases ht : t.token with
    | name text => exact .cons (Reader.sentence_name ht) (ht ▸ parses_assignBody text ts)
    | print => exact .cons (Reader.sentence_print ht) (ht ▸ parses_printBody ts)
    | _ =>
      refine .wrong [] ts t [] rfl hnone (fun rest code => ?_)
      simp [Reader.sentence, Cursor.ofCode, ht]

theorem Reader.sentence_tokens (d : Sentence) {words : List Spanned} {mark : Spanned}
    (hw : words.map Spanned.token = d.tokens) (hm : mark.token = .endOfInput)
    (rest : List Spanned) :
    sentence (.ofCode (words ++ mark :: rest) []) = .ok (.ofCode rest d.expr.code) := by
  have hend : ∀ code, skip .endOfInput (.ofCode (mark :: rest) code) = .ok (.ofCode rest code) :=
    fun code => by simp [skip_cons, hm, Token.kind]
  cases d with
  | assign name e =>
    obtain ⟨t, words, rfl, ht, hw⟩ := List.map_eq_cons_iff.1 hw
    obtain ⟨o, words, rfl, ho, hw⟩ := List.map_eq_cons_iff.1 hw
    have hopen : skip .assign (.ofCode (o :: (words ++ mark :: rest)) []) =
        .ok (.ofCode (words ++ mark :: rest) []) := by simp [skip_cons, ho, Token.kind]
    have hsum : climb 1 (.ofCode (words ++ mark :: rest) []) =
        .ok (.ofCode (mark :: rest) e.expr.code) :=
      climb_sum e hw (by simp [hm, Token.operator?]) []
    rw [List.cons_append, List.cons_append, sentence_name ht, assignBody, andThen_of_ok hopen,
      andThen_of_ok hsum, hend]
    rfl
  | print e =>
    obtain ⟨t, words, rfl, ht, hw⟩ := List.map_eq_cons_iff.1 hw
    obtain ⟨o, words, rfl, ho, hw⟩ := List.map_eq_cons_iff.1 hw
    obtain ⟨words, last, rfl, he, hl⟩ := List.map_eq_append_iff.1 hw
    obtain ⟨u, rfl, hu⟩ := List.map_eq_singleton_iff.1 hl
    have hopen : skip .leftParen (.ofCode (o :: (words ++ u :: mark :: rest)) []) =
        .ok (.ofCode (words ++ u :: mark :: rest) []) := by simp [skip_cons, ho, Token.kind]
    have hsum : climb 1 (.ofCode (words ++ u :: mark :: rest) []) =
        .ok (.ofCode (u :: mark :: rest) e.expr.code) :=
      climb_sum e he (by simp [hu, Token.operator?]) []
    have hclose : skip .rightParen (.ofCode (u :: mark :: rest) e.expr.code) =
        .ok (.ofCode (mark :: rest) e.expr.code) := by simp [skip_cons, hu, Token.kind]
    simp only [List.cons_append, List.append_assoc, List.nil_append]
    rw [sentence_print ht, printBody, andThen_of_ok hopen, andThen_of_ok hsum,
      andThen_of_ok hclose, hend]
    rfl

theorem Statement.ofHead_tokens (d : Sentence) {words : List Spanned}
    (hw : words.map Spanned.token = d.tokens) (ts : List Spanned) :
    ofHead (words ++ ts) d.expr.code = d.statement := by
  cases d with
  | assign name e =>
    obtain ⟨t, words, rfl, ht, hw⟩ := List.map_eq_cons_iff.1 hw
    simp [ofHead, ht, Sentence.statement, Sentence.expr]
  | print e =>
    obtain ⟨t, words, rfl, ht, hw⟩ := List.map_eq_cons_iff.1 hw
    simp [ofHead, ht, Sentence.statement, Sentence.expr]

theorem Statement.read_tokens (d : Sentence) {words : List Spanned} {mark : Spanned}
    (hw : words.map Spanned.token = d.tokens) (hm : mark.token = .endOfInput)
    (rest : List Spanned) : read (words ++ mark :: rest) = (.ok d.statement, rest) := by
  have hread := read_eq_sentence (words ++ mark :: rest)
  rw [Reader.sentence_tokens d hw hm] at hread
  simpa [Cursor.ofCode, ofHead_tokens d hw] using hread

theorem Statement.read_of_error {ts : List Spanned} {s : Stop}
    (h : Reader.sentence (.ofCode ts []) = .error s) : (read ts).1 = .error s.error := by
  have hread := read_eq_sentence ts
  rw [h] at hread
  exact hread

/-- Every statement that is read stands at the head of the tokens as a sentence. -/
theorem Statement.exists_sentence_of_read {ts rest : List Spanned} {s : Statement}
    (h : read ts = (.ok s, rest)) :
    ∃ (words : List Spanned) (mark : Spanned) (d : Sentence), ts = words ++ mark :: rest ∧
      mark.token = .endOfInput ∧ d.tokens = words.map Spanned.token ∧ s = d.statement := by
  cases hs : Reader.sentence (.ofCode ts []) with
  | error e =>
    have herr := read_of_error hs
    simp [h] at herr
  | ok c =>
    obtain ⟨pre, rest', out, hpre, hword, -⟩ := (parses_sentence ts).exists_of_ok hs
    obtain ⟨d, hd, -⟩ := hword
    obtain ⟨words, last, rfl, hw, hl⟩ := List.map_eq_append_iff.1 hd
    obtain ⟨mark, rfl, hm⟩ := List.map_eq_singleton_iff.1 hl
    have hts : ts = words ++ mark :: rest' := by simp [hpre]
    rw [hts, read_tokens d hw hm] at h
    cases h
    exact ⟨words, mark, d, hts, hm, hw.symm, rfl⟩

theorem Statement.exists_sentence_of_line {ws rest : List Spanned} {mark : Spanned}
    {s : Statement} (hws : ∀ t ∈ ws, t.token ≠ .endOfInput)
    (h : read (ws ++ [mark]) = (.ok s, rest)) :
    ∃ d : Sentence, d.tokens = ws.map Spanned.token ∧ s = d.statement := by
  obtain ⟨words, mark', d, hts, hm, hd, hs⟩ := exists_sentence_of_read h
  rcases append_singleton_cases hts with ⟨rest', hws'⟩ | ⟨rfl, -⟩
  · exact (hws mark' (by simp [hws']) hm).elim
  · exact ⟨d, hd, hs⟩

/-- A list of tokens is accepted just when a sentence and the mark of the end stand at its head.
The sentence has one derivation, the statement and its code are those of the derivation, and
the tokens after the mark are left over. -/
theorem Statement.read_eq_ok_iff (ts rest : List Spanned) (s : Statement) :
    read ts = (.ok s, rest) ↔
      ∃ (words : List Spanned) (mark : Spanned) (d : Sentence),
        ts = words ++ mark :: rest ∧ mark.token = .endOfInput ∧
        (d.tokens = words.map Spanned.token ∧
          ∀ d' : Sentence, d'.tokens = words.map Spanned.token → d' = d) ∧
        s = d.statement ∧ s.code = d.expr.code := by
  constructor
  · intro h
    obtain ⟨words, mark, d, hts, hm, hw, rfl⟩ := exists_sentence_of_read h
    have hunique : ∀ d' : Sentence, d'.tokens = words.map Spanned.token → d' = d :=
      fun d' h' => Sentence.tokens_injective (h'.trans hw.symm)
    exact ⟨words, mark, d, hts, hm, ⟨hw, hunique⟩, rfl, d.code_statement⟩
  · intro h
    obtain ⟨words, mark, d, rfl, hm, ⟨hw, -⟩, rfl, -⟩ := h
    exact read_tokens d hw.symm hm rest

end Reckon
