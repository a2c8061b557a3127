import Mathlib.Data.List.TakeWhile
import Reckon.Proofs.Evaluation
import Reckon.Proofs.Strays

/-! The notes of a line, exactly: its stray characters, wherever reading stopped, and then the
names that its expression reads before they have a value. A division by zero ends the reading of
names; those before it in the code have been noted, the others are not. -/

set_option autoImplicit false

namespace Reckon

def Token.name? : Token → Option String
  | name text => some text
  | _ => none

def Token.names (ts : List Token) : List String := ts.flatMap fun t => t.name?.toList

@[simp] theorem Token.names_nil : names [] = [] := rfl

@[simp] theorem Token.names_cons (t : Token) (ts : List Token) :
    names (t :: ts) = t.name?.toList ++ names ts := rfl

@[simp] theorem Token.names_append (ts us : List Token) : names (ts ++ us) = names ts ++ names us :=
  List.flatMap_append

def Instr.name? : Instr → Option String
  | load name => some name
  | _ => none

/-- The names that code reads, in order and as often as it reads them. -/
def Code.loads (code : Code) : List String := code.flatMap fun i => i.name?.toList

@[simp] theorem Code.loads_nil : loads [] = [] := rfl

@[simp] theorem Code.loads_cons (i : Instr) (code : Code) :
    loads (i :: code) = i.name?.toList ++ loads code := rfl

@[simp] theorem Code.loads_append (c d : Code) : loads (c ++ d) = loads c ++ loads d :=
  List.flatMap_append

theorem Phrase.loads_code {r : Rank} (e : Phrase r) :
    Code.loads e.expr.code = Token.names e.tokens := by
  induction e with
  | number x => rfl
  | complex z => rfl
  | name text => rfl
  | group e ih => simp [expr, tokens, ih, Token.name?]
  | root e ih => simp [expr, Expr.code, tokens, ih, Token.name?, Instr.name?]
  | ofPrimary e ih => exact ih
  | negate e ih => simp [expr, Expr.code, tokens, ih, Token.name?, Instr.name?]
  | ofUnary e ih => exact ih
  | product left op h right ihl ihr =>
    simp [expr, Expr.code, tokens, ihl, ihr, Token.name?, Instr.name?]
  | ofProduct e ih => exact ih
  | sum left op h right ihl ihr =>
    simp [expr, Expr.code, tokens, ihl, ihr, Token.name?, Instr.name?]

/-- The names in the expression of a statement; two tokens stand before it in either form. -/
def Scan.namesIn (line : List Char) : List String :=
  Token.names (((words line).drop 2).map Spanned.token)

theorem Sentence.loads_code {d : Sentence} {line : List Char}
    (h : d.tokens = (Scan.words line).map Spanned.token) :
    Code.loads d.expr.code = Scan.namesIn line := by
  rw [Scan.namesIn, List.map_drop, ← h]
  cases d with
  | assign name e => exact e.loads_code
  | print e => simp [expr, tokens, e.loads_code, Token.name?]

def Store.missing (store : Store) (names : List String) : List Diagnostic :=
  (names.filter fun name => (store.get? name).isNone).map .undefined

@[simp] theorem Store.missing_append (store : Store) (names more : List String) :
    store.missing (names ++ more) = store.missing names ++ store.missing more := by
  simp [missing]

theorem Store.undefined_mem_missing {store : Store} {names : List String} {name : String} :
    .undefined name ∈ store.missing names ↔ name ∈ names ∧ store.get? name = none := by
  simp [missing]

namespace Machine

theorem step_notes (store : Store) (position : Nat) (stack : List Value) (i : Instr) :
    (step store position stack i).2 = store.missing i.name?.toList := by
  cases i with
  | real x => rfl
  | complex z => rfl
  | load name => cases h : store.get? name <;> simp [step, load, h, Instr.name?, Store.missing]
  | negate => cases stack <;> rfl
  | root => cases stack <;> rfl
  | binary op => rcases stack with _ | ⟨w, _ | ⟨v, rest⟩⟩ <;> rfl

theorem name?_of_step_error {store : Store} {position : Nat} {stack : List Value} {i : Instr}
    {e : EvalError} (h : (step store position stack i).1 = .error e) : i.name? = none := by
  cases i with
  | load name => cases h
  | _ => rfl

/-- The stack after code of which every instruction can be performed. -/
def stackFrom? (store : Store) : Nat → List Value → Code → Option (List Value)
  | _, stack, [] => some stack
  | position, stack, i :: code =>
    match (step store position stack i).1 with
    | .error _ => none
    | .ok stack => stackFrom? store (position + 1) stack code

/-- All that a run can do: it performs every instruction and looks at the stack, or it stops at
the first one that fails. Either way it has noted the names that it read. -/
theorem runFrom_cases (store : Store) (position : Nat) (stack : List Value)
    (log : List Diagnostic) (code : Code) :
    (∃ stack', stackFrom? store position stack code = some stack' ∧
      runFrom store position stack log code =
        runFrom store (position + code.length) stack' (log ++ store.missing (Code.loads code)) []) ∨
    ∃ (before : Code) (i : Instr) (after : Code) (stack' : List Value) (e : EvalError),
      code = before ++ i :: after ∧ stackFrom? store position stack before = some stack' ∧
      (step store (position + before.length) stack' i).1 = .error e ∧
      runFrom store position stack log code =
        (.error e, log ++ store.missing (Code.loads before)) := by
  induction code generalizing position stack log with
  | nil => exact .inl ⟨stack, rfl, by simp [Store.missing]⟩
  | cons i code ih =>
    have hnotes := step_notes store position stack i
    rcases hstep : step store position stack i with ⟨e | next, notes⟩
    · have herror : (step store position stack i).1 = .error e := by rw [hstep]
      have hempty : notes = [] := by
        rw [hstep, name?_of_step_error herror] at hnotes
        exact hnotes
      refine .inr ⟨[], i, code, stack, e, rfl, rfl, herror, ?_⟩
      rw [runFrom, hstep, hempty]
      rfl
    · have hpast : position + (i :: code).length = position + 1 + code.length := by
        rw [List.length_cons]
        omega
      have hread : ∀ c : Code, log ++ notes ++ store.missing (Code.loads c) =
          log ++ store.missing (Code.loads (i :: c)) := by
        intro c
        rw [hstep] at hnotes
        rw [Code.loads_cons, Store.missing_append, ← hnotes, List.append_assoc]
      have hstack : ∀ c : Code, stackFrom? store position stack (i :: c) =
          stackFrom? store (position + 1) next c := by
        intro c
        rw [stackFrom?, hstep]
      rw [runFrom, hstep]
      rcases ih (position + 1) next (log ++ notes) with
        ⟨stack', hreach, hrun⟩ | ⟨before, j, after, stack', e, rfl, hreach, herror, hrun⟩
      · refine .inl ⟨stack', (hstack code).trans hreach, ?_⟩
        rw [hpast, ← hread]
        exact hrun
      · refine .inr ⟨i :: before, j, after, stack', e, rfl, (hstack before).trans hreach, ?_, ?_⟩
        · rw [List.length_cons, Nat.add_comm before.length, ← Nat.add_assoc]
          exact herror
        · rw [← hread]
          exact hrun

theorem stackFrom?_append (store : Store) (position : Nat) (stack : List Value) (c d : Code) :
    stackFrom? store position stack (c ++ d) =
      (stackFrom? store position stack c).bind fun stack' =>
        stackFrom? store (position + c.length) stack' d := by
  induction c generalizing position stack with
  | nil => rfl
  | cons i c ih =>
    rw [List.cons_append, stackFrom?, stackFrom?]
    cases (step store position stack i).1 with
    | error e => rfl
    | ok next =>
      rw [List.length_cons, Nat.add_comm c.length, ← Nat.add_assoc]
      exact ih (position + 1) next

theorem before_unique {store : Store} {position : Nat} {stack : List Value}
    {before after before' after' : Code} {i j : Instr} {top top' : List Value} {e e' : EvalError}
    (hcode : before ++ i :: after = before' ++ j :: after')
    (h : stackFrom? store position stack before = some top)
    (h' : stackFrom? store position stack before' = some top')
    (hi : (step store (position + before.length) top i).1 = .error e)
    (hj : (step store (position + before'.length) top' j).1 = .error e') : before = before' := by
  have hstop : ∀ {b : Code} {k : Instr} {u : List Value} {f : EvalError} (rest : Code),
      stackFrom? store position stack b = some u →
      (step store (position + b.length) u k).1 = .error f →
      stackFrom? store position stack (b ++ k :: rest) = none := by
    intro b k u f rest hb hk
    rw [stackFrom?_append, hb, Option.bind_some, stackFrom?, hk]
  rcases append_cons_cases hcode with ⟨rest, rfl⟩ | ⟨more, rfl, hmore⟩
  · rw [hstop rest h' hj] at h
    cases h
  · cases more with
    | nil => rw [List.append_nil]
    | cons k more =>
      obtain ⟨rfl, -⟩ := List.cons.inj hmore
      rw [hstop more h hi] at h'
      cases h'

end Machine

theorem Value.eq_divide_of_apply_error {op : Operator} {v w : Value} {e : EvalError}
    (h : apply op v w = .error e) : op = .divide := by
  unfold apply at h
  split at h
  · have herror := eq_error_of_map h
    cases op with
    | divide => rfl
    | _ => cases herror
  · have herror := eq_error_of_map h
    cases op with
    | divide => rfl
    | _ => cases herror

theorem Machine.step_eq_divisionByZero_iff {store : Store} {position : Nat} {stack : List Value}
    {i : Instr} : (step store position stack i).1 = .error .divisionByZero ↔
      i = .binary .divide ∧ ∃ (v w : Value) (rest : List Value), stack = w :: v :: rest ∧
        Value.apply .divide v w = .error .divisionByZero := by
  constructor
  · intro h
    cases i with
    | binary op =>
      rcases stack with _ | ⟨w, _ | ⟨v, rest⟩⟩
      · cases h
      · cases h
      · have happly : Value.apply op v w = .error .divisionByZero := eq_error_of_map h
        obtain rfl := Value.eq_divide_of_apply_error happly
        exact ⟨rfl, v, w, rest, rfl, happly⟩
    | negate => cases stack <;> cases h
    | root => cases stack <;> cases h
    | _ => cases h
  · rintro ⟨rfl, v, w, rest, rfl, hzero⟩
    simp [step, hzero, Except.map]

theorem Text.trim_eq_nil_iff (cs : List Char) : trim cs = [] ↔ cs.all isBlank = true := by
  have hend : trim cs = [] ↔ ∀ c ∈ cs.dropWhile isBlank, isBlank c = true := by
    simp [trim, dropEndWhile, List.dropWhile_eq_nil_iff]
  rw [hend, List.all_eq_true]
  constructor
  · intro h c hc
    rw [← List.takeWhile_append_dropWhile (p := isBlank) (l := cs)] at hc
    rcases List.mem_append.1 hc with hc | hc
    · exact List.all_eq_true.1 List.all_takeWhile c hc
    · exact h c hc
  · intro h c hc
    exact h c ((List.dropWhile_sublist _).mem hc)

theorem Text.trim_ne_nil {cs : List Char} (h : cs.all isBlank = false) : trim cs ≠ [] := by
  rw [Ne, trim_eq_nil_iff, h]
  simp

/-- What a line notes beside its result. Nothing is noted of blank space. Of any other line the
stray characters are, and of a statement the names without a value: every one in its expression,
or those read before the division that failed. -/
inductive Noted (store : Store) (line : List Char) : LineResult → List Diagnostic → Prop
  | blank (h : Text.trim line = []) : Noted store line (.ok .empty) []
  | refused (h : Text.trim line ≠ []) (e : SyntaxError) (he : Statement.ofLine line = .error e) :
      Noted store line (.error (.reading e)) ((Scan.strays line).map .unknown)
  | done (h : Text.trim line ≠ []) (s : Statement) (hs : Statement.ofLine line = .ok s)
      (o : Outcome) : Noted store line (.ok o)
        ((Scan.strays line).map .unknown ++ store.missing (Scan.namesIn line))
  | divided (h : Text.trim line ≠ []) (s : Statement) (hs : Statement.ofLine line = .ok s)
      (before after : Code) (hcode : s.code = before ++ .binary .divide :: after)
      (v w : Value) (rest : List Value)
      (hstack : Machine.stackFrom? store 0 [] before = some (w :: v :: rest))
      (hzero : Value.apply .divide v w = .error .divisionByZero)
      (hnames : Scan.namesIn line = Code.loads before ++ Code.loads after) :
      Noted store line (.error (.running .divisionByZero))
        ((Scan.strays line).map .unknown ++ store.missing (Code.loads before))

theorem Noted.unique {store : Store} {line : List Char} {r : LineResult}
    {notes notes' : List Diagnostic} (h : Noted store line r notes)
    (h' : Noted store line r notes') : notes = notes' := by
  cases h with
  | blank hb =>
    cases h' with
    | blank => rfl
    | done hb' => exact (hb' hb).elim
  | refused =>
    cases h'
    rfl
  | done hb =>
    cases h' with
    | blank hb' => exact (hb hb').elim
    | done => rfl
  | divided hb s hs before after hcode v w rest hstack hzero =>
    cases h' with
    | divided _ s' hs' before' after' hcode' v' w' rest' hstack' hzero' =>
      rw [hs] at hs'
      cases hs'
      rw [Machine.before_unique (hcode.symm.trans hcode') hstack hstack'
        (Machine.step_eq_divisionByZero_iff.2 ⟨rfl, v, w, rest, rfl, hzero⟩)
        (Machine.step_eq_divisionByZero_iff.2 ⟨rfl, v', w', rest', rfl, hzero'⟩)]

/-- Safe code runs to its end and has then read all its names, or it stops at a division. -/
theorem Code.Safe.run_cases {code : Code} (h : Safe code) (store : Store)
    (log : List Diagnostic) :
    (∃ v, Machine.run store log code = (.ok v, log ++ store.missing (loads code))) ∨
    ∃ (before after : Code) (v w : Value) (rest : List Value),
      code = before ++ .binary .divide :: after ∧
      Machine.stackFrom? store 0 [] before = some (w :: v :: rest) ∧
      Value.apply .divide v w = .error .divisionByZero ∧
      Machine.run store log code =
        (.error .divisionByZero, log ++ store.missing (loads before)) := by
  have hresult := h.run store log
  rcases Machine.runFrom_cases store 0 [] log code with
    ⟨stack, -, hrun⟩ | ⟨before, i, after, stack, e, hcode, hstack, hstep, hrun⟩
  · refine .inl ?_
    rw [Machine.run, hrun] at hresult ⊢
    rcases stack with _ | ⟨v, _ | ⟨w, rest⟩⟩
    · simp [Machine.runFrom] at hresult
    · exact ⟨v, rfl⟩
    · simp [Machine.runFrom] at hresult
  · refine .inr ?_
    rw [Machine.run, hrun] at hresult ⊢
    obtain rfl : e = .divisionByZero := by simpa using hresult
    obtain ⟨rfl, v, w, rest, rfl, hzero⟩ := Machine.step_eq_divisionByZero_iff.1 hstep
    exact ⟨before, after, v, w, rest, hcode, hstack, hzero, rfl⟩

theorem Statement.noted_of_ofLine {line : List Char} {s : Statement} (hs : ofLine line = .ok s)
    (store : Store) (log : List Diagnostic) :
    ∃ notes, (runLine store log line).log = log ++ notes ∧
      Noted store line (runLine store log line).result notes := by
  obtain ⟨d, hd, rfl⟩ := exists_sentence_of_ofLine hs
  have hblank : Text.trim line ≠ [] := Text.trim_ne_nil (not_isBlank_of_ofLine hs)
  have hsafe : Code.Safe d.statement.code := d.code_statement ▸ d.expr.safe_code
  have hnames : Scan.namesIn line = Code.loads d.statement.code := by
    rw [d.code_statement, Sentence.loads_code hd]
  rw [runLine_of_ofLine hs, Scan.unknowns_eq_strays, Statement.run]
  rcases hsafe.run_cases store (log ++ (Scan.strays line).map .unknown) with
    ⟨v, hrun⟩ | ⟨before, after, v, w, rest, hcode, hstack, hzero, hrun⟩
  · rw [hrun, List.append_assoc, ← hnames]
    cases d with
    | assign name e => exact ⟨_, rfl, .done hblank _ hs (.assigned name v)⟩
    | print e => exact ⟨_, rfl, .done hblank _ hs (.printed v)⟩
  · rw [hrun, List.append_assoc]
    refine ⟨_, rfl, .divided hblank _ hs before after hcode v w rest hstack hzero ?_⟩
    rw [hnames, hcode, Code.loads_append, Code.loads_cons]
    rfl

theorem exists_noted (store : Store) (log : List Diagnostic) (line : List Char) :
    ∃ notes, (runLine store log line).log = log ++ notes ∧
      Noted store line (runLine store log line).result notes := by
  cases hs : Statement.ofLine line with
  | ok s => exact Statement.noted_of_ofLine hs store log
  | error e =>
    cases hb : line.all Text.isBlank with
    | true =>
      rw [runLine, if_pos hb]
      exact ⟨[], (List.append_nil log).symm, .blank ((Text.trim_eq_nil_iff line).2 hb)⟩
    | false =>
      rw [runLine, if_neg (by simp [hb]), hs, Scan.unknowns_eq_strays]
      exact ⟨_, rfl, .refused (Text.trim_ne_nil hb) e hs⟩

/-- A line adds to the log just the notes that go with its result. No token begins at a character
that is noted, and a name that gets its first value from the line is noted wherever its own
expression reads it. -/
theorem runLine_log_noted (store : Store) (log : List Diagnostic) (line : List Char) :
    ∃ notes, (runLine store log line).log = log ++ notes ∧
      (Noted store line (runLine store log line).result notes ∧
        ∀ notes', Noted store line (runLine store log line).result notes' → notes' = notes) ∧
      (∀ u ∈ Scan.strays line, ∀ v, v <+: line.drop u.column → ¬ IsLexeme v) ∧
      ∀ (name : String) (value : Value),
        (runLine store log line).result = .ok (.assigned name value) →
        (.undefined name ∈ notes ↔ name ∈ Scan.namesIn line ∧ store.get? name = none) := by
  obtain ⟨notes, hlog, hnoted⟩ := exists_noted store log line
  refine ⟨notes, hlog, ⟨hnoted, fun _ h => h.unique hnoted⟩, ?_, ?_⟩
  · intro u hu v hv
    rw [← Scan.unknowns_eq_strays] at hu
    exact (munched_itemsFrom 0 line).not_isLexeme rfl (Scan.mem_unknowns.1 hu) hv
  · intro name value hresult
    rw [hresult] at hnoted
    cases hnoted with
    | done => simp [Store.undefined_mem_missing]

theorem first_value_from_own_name :
    (runLine .empty [] "x = y $ + x".toList).result = .ok (.assigned "x" (.real 0)) ∧
      ∃ notes, (runLine .empty [] "x = y $ + x".toList).log = [] ++ notes ∧
        .undefined "x" ∈ notes := by
  have hresult : (runLine .empty [] "x = y $ + x".toList).result =
      .ok (.assigned "x" (.real 0)) := by decide +kernel
  obtain ⟨notes, hlog, -, -, htarget⟩ := runLine_log_noted .empty [] "x = y $ + x".toList
  exact ⟨hresult, notes, hlog, (htarget _ _ hresult).2 ⟨by decide +kernel, rfl⟩⟩

example : (runLine .empty [] "print(a / 0 + b) §".toList).log =
    [.unknown ⟨'§', 17⟩, .undefined "a"] := by decide +kernel

end Reckon
