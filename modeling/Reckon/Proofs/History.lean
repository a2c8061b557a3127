import Reckon.Proofs.Evaluation

/-! The store as a history. Each name has the value that was last assigned to it with success:
a line that assigns nothing changes nothing, and a run without such lines is the same run. -/

set_option autoImplicit false

namespace Reckon
namespace LineResult

def assigned? : LineResult → Option Entry
  | .ok (.assigned name value) => some (name, value)
  | _ => none

def isAssigned (r : LineResult) : Bool := (assigned? r).isSome

def lastAssigned? (results : List LineResult) (name : String) : Option Value :=
  (results.filterMap assigned?).reverse.lookup name

theorem lastAssigned?_cons (r : LineResult) (results : List LineResult) (name : String) :
    lastAssigned? (r :: results) name =
      (lastAssigned? results name).or ((assigned? r).toList.lookup name) := by
  cases h : assigned? r with
  | none => simp [lastAssigned?, h]
  | some e => simp [lastAssigned?, h, List.lookup_append]

def kept (lines : List (List Char)) (results : List LineResult) : List (List Char) :=
  ((lines.zip results).filter fun p => isAssigned p.2).map Prod.fst

theorem kept_cons (line : List Char) (lines : List (List Char)) (r : LineResult)
    (results : List LineResult) :
    kept (line :: lines) (r :: results) =
      if isAssigned r then line :: kept lines results else kept lines results := by
  cases h : isAssigned r <;> simp [kept, h]

theorem mem_of_mem_kept {lines : List (List Char)} {results : List LineResult} {line : List Char}
    (h : line ∈ kept lines results) : line ∈ lines := by
  obtain ⟨p, hp, rfl⟩ := List.mem_map.1 h
  exact (List.of_mem_zip (List.mem_filter.1 hp).1).1

end LineResult

def Store.after (store : Store) : Option Entry → Store
  | some (name, value) => store.set name value
  | none => store

theorem Store.get?_after (store : Store) (e : Option Entry) (name : String) :
    (store.after e).get? name = (e.toList.lookup name).or (store.get? name) := by
  cases e with
  | none => rfl
  | some e =>
    obtain ⟨other, value⟩ := e
    rw [after, get?_set, Option.toList_some, lookup_entry]
    by_cases h : name = other <;> simp [h]

theorem Sentence.exists_interpret_eq (d : Sentence) (store : Store) :
    ∃ (r : LineResult) (notes : List Diagnostic), ∀ log,
      d.interpret store log = ⟨r, store.after (LineResult.assigned? r), log ++ notes⟩ := by
  cases h : d.expr.eval store with
  | mk value notes =>
    cases value with
    | error e =>
      refine ⟨.error (.running e), notes, fun log => ?_⟩
      rw [interpret, h]
      rfl
    | ok v =>
      cases d with
      | assign name e =>
        refine ⟨.ok (.assigned name v), notes, fun log => ?_⟩
        rw [interpret, h]
        rfl
      | print e =>
        refine ⟨.ok (.printed v), notes, fun log => ?_⟩
        rw [interpret, h]
        rfl

/-- All that a line does. Its result does not depend on earlier warnings, and the store takes what
the result says was assigned. -/
theorem exists_runLine_eq (store : Store) (line : List Char) :
    ∃ (r : LineResult) (notes : List Diagnostic), ∀ log,
      runLine store log line = ⟨r, store.after (LineResult.assigned? r), log ++ notes⟩ := by
  cases h : Statement.ofLine line with
  | error e =>
    cases hb : line.all Text.isBlank with
    | true =>
      refine ⟨.ok .empty, [], fun log => ?_⟩
      rw [runLine, if_pos hb, List.append_nil]
      rfl
    | false =>
      refine ⟨.error (.reading e), (Scan.unknowns line).map .unknown, fun log => ?_⟩
      rw [runLine, if_neg (by simp [hb]), h]
      rfl
  | ok s =>
    obtain ⟨d, -, rfl⟩ := Statement.exists_sentence_of_ofLine h
    obtain ⟨r, notes, hd⟩ := d.exists_interpret_eq store
    refine ⟨r, (Scan.unknowns line).map .unknown ++ notes, fun log => ?_⟩
    rw [Statement.runLine_of_ofLine h, Sentence.run_statement, hd, List.append_assoc]

theorem runLine_store (store : Store) (log : List Diagnostic) (line : List Char) :
    (runLine store log line).store =
      store.after (LineResult.assigned? (runLine store log line).result) := by
  obtain ⟨r, notes, h⟩ := exists_runLine_eq store line
  rw [h]

theorem runLine_store_of_print {line : List Char} {code : Code}
    (h : Statement.ofLine line = .ok (.print code)) (store : Store) (log : List Diagnostic) :
    (runLine store log line).store = store := by
  rw [Statement.runLine_of_ofLine h, Statement.run]
  split <;> rfl

theorem runLine_store_of_isAssigned {store : Store} {log : List Diagnostic} {line : List Char}
    (h : LineResult.isAssigned (runLine store log line).result = false) :
    (runLine store log line).store = store := by
  have hnone : LineResult.assigned? (runLine store log line).result = none := by
    simpa [LineResult.isAssigned] using h
  rw [runLine_store, hnone]
  rfl

/-- The results of lines and the store at the end, warnings left out. -/
def trace (store : Store) : List (List Char) → List LineResult × Store
  | [] => ([], store)
  | line :: lines =>
    let e := runLine store [] line
    let rest := trace e.store lines
    (e.result :: rest.1, rest.2)

theorem trace_cons (store : Store) (log : List Diagnostic) (line : List Char)
    (lines : List (List Char)) :
    trace store (line :: lines) =
      ((runLine store log line).result :: (trace (runLine store log line).store lines).1,
        (trace (runLine store log line).store lines).2) := by
  obtain ⟨r, notes, h⟩ := exists_runLine_eq store line
  rw [trace, h, h]

theorem get?_trace (store : Store) (lines : List (List Char)) (name : String) :
    (trace store lines).2.get? name =
      (LineResult.lastAssigned? (trace store lines).1 name).or (store.get? name) := by
  induction lines generalizing store with
  | nil => rfl
  | cons line lines ih =>
    rw [trace, ih, runLine_store, Store.get?_after, LineResult.lastAssigned?_cons, Option.or_assoc]

theorem trace_kept (store : Store) (lines : List (List Char)) :
    trace store (LineResult.kept lines (trace store lines).1) =
      ((trace store lines).1.filter LineResult.isAssigned, (trace store lines).2) := by
  induction lines generalizing store with
  | nil => rfl
  | cons line lines ih =>
    cases h : LineResult.isAssigned (runLine store [] line).result with
    | false =>
      have hstore := runLine_store_of_isAssigned h
      simpa [trace, LineResult.kept_cons, h, hstore] using ih store
    | true =>
      have ih := ih (runLine store [] line).store
      simp [trace, LineResult.kept_cons, h, ih]

def runLines (store : Store) : List (List Diagnostic × List Char) → List LineResult × Store
  | [] => ([], store)
  | (log, line) :: rest =>
    let e := runLine store log line
    let (results, final) := runLines e.store rest
    (e.result :: results, final)

theorem runLines_eq_trace (store : Store) (steps : List (List Diagnostic × List Char)) :
    runLines store steps = trace store (steps.map Prod.snd) := by
  induction steps generalizing store with
  | nil => rfl
  | cons p rest ih =>
    obtain ⟨log, line⟩ := p
    rw [List.map_cons, trace_cons store log, ← ih]
    rfl

namespace Session

def executeAll (s : Session) : List (List Char) → List LineResult × Session
  | [] => ([], s)
  | line :: lines =>
    let (r, s) := s.execute line
    let (rs, s) := s.executeAll lines
    (r :: rs, s)

theorem executeAll_eq_trace (s : Session) (lines : List (List Char)) :
    (s.executeAll lines).map id Session.store = trace s.store lines := by
  induction lines generalizing s with
  | nil => rfl
  | cons line lines ih =>
    have hnext : (runLine s.store s.pending line).store = (s.execute line).2.store := rfl
    rw [trace_cons s.store s.pending, hnext, ← ih]
    rfl

theorem reports_eq_trace (s : Session) (number : Nat) (lines : List (List Char)) :
    (s.reports number lines).map (List.map Report.result) Session.store = trace s.store lines := by
  induction lines generalizing s number with
  | nil => rfl
  | cons line lines ih =>
    have hnext : (runLine s.store s.pending line).store = (s.report number line).2.store := rfl
    rw [trace_cons s.store s.pending, hnext, ← ih _ (number + 1)]
    rfl

end Session

namespace Text

/-- A text with the given lines. A carriage return of its own before each line feed saves one
that ends a line. -/
def unlines (ls : List (List Char)) : List Char := ls.flatMap fun l => l ++ ['\r', '\n']

theorem linesFrom_append {w : List Char} (h : '\n' ∉ w) (current rest : List Char) :
    linesFrom current (w ++ rest) = linesFrom (w.reverse ++ current) rest := by
  induction w generalizing current with
  | nil => rfl
  | cons c w ih =>
    have hc : c ≠ '\n' := fun he => h (by simp [he])
    have hw : '\n' ∉ w := fun hm => h (by simp [hm])
    rw [List.cons_append, linesFrom, if_neg hc, ih hw, List.reverse_cons,
      List.append_assoc]
    rfl

theorem lines_unlines {ls : List (List Char)} (h : ∀ l ∈ ls, '\n' ∉ l) :
    lines (unlines ls) = ls := by
  induction ls with
  | nil => rfl
  | cons l ls ih =>
    obtain ⟨hl, hls⟩ := List.forall_mem_cons.1 h
    have htext : unlines (l :: ls) = l ++ '\r' :: '\n' :: unlines ls := by simp [unlines]
    have hend : linesFrom (l.reverse ++ []) ('\r' :: '\n' :: unlines ls) =
        l :: lines (unlines ls) := by
      simp [linesFrom, dropReturn, lines]
    rw [lines, htext, linesFrom_append hl, hend, ih hls]

theorem mem_of_mem_dropReturn {c : Char} {cs : List Char} (h : c ∈ dropReturn cs) : c ∈ cs := by
  cases cs with
  | nil => exact h
  | cons d cs =>
    rw [dropReturn] at h
    split at h
    · exact List.mem_cons_of_mem d h
    · exact h

theorem newline_notMem_linesFrom {current : List Char} (hc : '\n' ∉ current) (cs : List Char) :
    ∀ l ∈ linesFrom current cs, '\n' ∉ l := by
  induction cs generalizing current with
  | nil =>
    unfold linesFrom
    split <;> simp [hc]
  | cons c cs ih =>
    unfold linesFrom
    split
    · refine List.forall_mem_cons.2 ⟨fun hm => hc ?_, ih (by simp)⟩
      exact mem_of_mem_dropReturn (List.mem_reverse.1 hm)
    · rename_i hne
      exact ih (by simp [hc, Ne.symm hne])

end Text

/-- A run with the given results took a store to another: each name has at the end the value last
assigned to it, or else what it had. The run without the lines that assign nothing has the other
results and ends with the same store. -/
structure Historical (initial : Store) (run rerun : List LineResult × Store) : Prop where
  value : ∀ name, run.2.get? name =
    (LineResult.lastAssigned? run.1 name).or (initial.get? name)
  remaining : rerun.1 = run.1.filter LineResult.isAssigned
  final : rerun.2 = run.2

theorem historical_trace (store : Store) (lines : List (List Char)) :
    Historical store (trace store lines)
      (trace store (LineResult.kept lines (trace store lines).1)) where
  value := get?_trace store lines
  remaining := by rw [trace_kept]
  final := by rw [trace_kept]

/-- A line that assigns nothing, be it blank, in error or a `print`, leaves the store. Lines that
are run one after another, by themselves, in a session or as a script, leave a history. -/
theorem store_unchanged_and_runs_historical :
    (∀ (store : Store) (log : List Diagnostic) (line : List Char),
      LineResult.isAssigned (runLine store log line).result = false ∨
        (∃ code, Statement.ofLine line = .ok (.print code)) ∨ line.all Text.isBlank = true →
      (runLine store log line).store = store) ∧
    (∀ (store : Store) (steps steps' : List (List Diagnostic × List Char)),
      steps'.map Prod.snd = LineResult.kept (steps.map Prod.snd) (runLines store steps).1 →
      Historical store (runLines store steps) (runLines store steps')) ∧
    (∀ (s : Session) (lines : List (List Char)),
      let run := (s.executeAll lines).map id Session.store
      Historical s.store run
        ((s.executeAll (LineResult.kept lines run.1)).map id Session.store)) ∧
    ∀ (s : Session) (source : List Char),
      let run := (s.runScript source).map (List.map Report.result) Session.store
      (∃ source', Text.lines source' = LineResult.kept (Text.lines source) run.1) ∧
      ∀ source', Text.lines source' = LineResult.kept (Text.lines source) run.1 →
        Historical s.store run
          ((s.runScript source').map (List.map Report.result) Session.store) := by
  refine ⟨?_, ?_, ?_, ?_⟩
  · rintro store log line (h | ⟨code, h⟩ | h)
    · exact runLine_store_of_isAssigned h
    · exact runLine_store_of_print h store log
    · simp [runLine, h]
  · intro store steps steps' h
    rw [runLines_eq_trace] at h
    rw [runLines_eq_trace, runLines_eq_trace, h]
    exact historical_trace store _
  · intro s lines run
    have hrun : run = trace s.store lines := s.executeAll_eq_trace lines
    rw [s.executeAll_eq_trace, hrun]
    exact historical_trace s.store lines
  · intro s source run
    have hrun : run = trace s.store (Text.lines source) := s.reports_eq_trace 1 _
    refine ⟨⟨_, Text.lines_unlines ?_⟩, fun source' h => ?_⟩
    · intro l hl
      exact Text.newline_notMem_linesFrom (by simp) source l (LineResult.mem_of_mem_kept hl)
    · rw [Session.runScript, s.reports_eq_trace, h, hrun]
      exact historical_trace s.store _

theorem first_value_after_failed_division :
    (LineResult.isAssigned
        (runLine (Store.empty.set "x" (.real 5)) [] "x = x / 0".toList).result = false ∧
      (runLine (Store.empty.set "x" (.real 5)) [] "x = x / 0".toList).store =
        Store.empty.set "x" (.real 5)) ∧
    Historical .empty (runLines .empty [([], "x = 5".toList), ([], "x = x / 0".toList)])
      (runLines .empty [([], "x = 5".toList)]) ∧
    Historical .empty
      (((Session.fresh false).runScript "x = 5\nx = x / 0\n\ny = x".toList).map
        (List.map Report.result) Session.store)
      (((Session.fresh false).runScript "x = 5\ny = x".toList).map
        (List.map Report.result) Session.store) := by
  refine ⟨?_, ?_, ?_⟩
  · have h : LineResult.isAssigned
        (runLine (Store.empty.set "x" (.real 5)) [] "x = x / 0".toList).result = false := by
      decide +kernel
    exact ⟨h, store_unchanged_and_runs_historical.1 _ _ _ (.inl h)⟩
  · exact store_unchanged_and_runs_historical.2.1 _ _ _ (by decide +kernel)
  · have h := (store_unchanged_and_runs_historical.2.2.2 (.fresh false)
      "x = 5\nx = x / 0\n\ny = x".toList).2 "x = 5\ny = x".toList
    exact h (by decide +kernel)

end Reckon
