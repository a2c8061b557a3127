import Reckon.Proofs.Attribution
import Reckon.Proofs.Notes

/-! Calls on a session. Lines are executed one at a time or as a script, and warnings are taken at
any time or with the reports: nothing that a line raises is lost on the way, and nothing is handed
out twice. A script may be cut at any line feed and run in pieces. -/

set_option autoImplicit false

namespace Reckon
namespace Machine

/-- The names that code reads up to its end or to the instruction that fails. -/
def readsFrom (store : Store) : Nat → List Value → Code → List String
  | _, _, [] => []
  | position, stack, i :: code =>
    i.name?.toList ++
      match (step store position stack i).1 with
      | .error _ => []
      | .ok stack => readsFrom store (position + 1) stack code

def reads (store : Store) (code : Code) : List String := readsFrom store 0 [] code

theorem runFrom_log (store : Store) (position : Nat) (stack : List Value) (log : List Diagnostic)
    (code : Code) :
    (runFrom store position stack log code).2 =
      log ++ store.missing (readsFrom store position stack code) := by
  induction code generalizing position stack log with
  | nil =>
    have hlog : (runFrom store position stack log []).2 = log := by
      rcases stack with _ | ⟨v, _ | ⟨w, rest⟩⟩ <;> rfl
    rw [hlog, readsFrom]
    exact (List.append_nil log).symm
  | cons i code ih =>
    have hnotes := step_notes store position stack i
    rw [readsFrom, Store.missing_append, ← hnotes, runFrom]
    rcases step store position stack i with ⟨e | next, notes⟩
    · exact (congrArg (log ++ ·) (List.append_nil notes)).symm
    · exact (ih (position + 1) next (log ++ notes)).trans (List.append_assoc _ _ _)

theorem run_log (store : Store) (log : List Diagnostic) (code : Code) :
    (run store log code).2 = log ++ store.missing (reads store code) :=
  runFrom_log store 0 [] log code

end Machine

/-- The warnings that a line raises: its stray characters and then, of a statement, the names that
it reads before they have a value. -/
def raised (store : Store) (line : List Char) : List Diagnostic :=
  if Text.trim line = [] then []
  else
    (Scan.strays line).map .unknown ++
      match Statement.ofLine line with
      | .error _ => []
      | .ok s => store.missing (Machine.reads store s.code)

theorem Statement.run_log (s : Statement) (store : Store) (log : List Diagnostic) :
    (s.run store log).log = log ++ store.missing (Machine.reads store s.code) := by
  rw [← Machine.run_log, Statement.run]
  rcases Machine.run store log s.code with ⟨e | v, notes⟩
  · rfl
  · cases s <;> rfl

theorem runLine_log (store : Store) (log : List Diagnostic) (line : List Char) :
    (runLine store log line).log = log ++ raised store line := by
  cases hb : line.all Text.isBlank with
  | true =>
    rw [runLine, if_pos hb, raised, if_pos ((Text.trim_eq_nil_iff line).2 hb)]
    exact (List.append_nil log).symm
  | false =>
    rw [runLine, if_neg (by simp [hb]), raised, if_neg (Text.trim_ne_nil hb),
      Scan.unknowns_eq_strays, ← List.append_assoc]
    cases Statement.ofLine line with
    | error e => exact (List.append_nil _).symm
    | ok s => exact s.run_log store _

def raisedAll (store : Store) : List (List Char) → List Diagnostic
  | [] => []
  | line :: lines => raised store line ++ raisedAll (runLine store [] line).store lines

theorem raisedAll_append (store : Store) (lines more : List (List Char)) :
    raisedAll store (lines ++ more) =
      raisedAll store lines ++ raisedAll (trace store lines).2 more := by
  induction lines generalizing store with
  | nil => rfl
  | cons line lines ih => rw [List.cons_append, raisedAll, ih, raisedAll, trace, List.append_assoc]

inductive Call where
  | execute (line : List Char)
  | take
  | runScript (source : List Char)

def Call.lines : Call → List (List Char)
  | execute line => [line]
  | take => []
  | runScript source => Text.lines source

inductive Reply where
  | result (r : LineResult)
  | diagnostics (ds : List Diagnostic)
  | reports (rs : List Report)

def Reply.handed : Reply → List Diagnostic
  | result _ => []
  | diagnostics ds => ds
  | reports rs => rs.flatMap Report.diagnostics

namespace Session

def reply (s : Session) : Call → Reply × Session
  | .execute line => (s.execute line).map .result id
  | .take => s.takeDiagnostics.map .diagnostics id
  | .runScript source => (s.runScript source).map .reports id

def replies (s : Session) : List Call → List Reply × Session
  | [] => ([], s)
  | c :: cs =>
    let (r, s) := s.reply c
    let (rs, s) := s.replies cs
    (r :: rs, s)

theorem handed_reports (s : Session) (number : Nat) (lines : List (List Char)) :
    (s.reports number lines).1.flatMap Report.diagnostics ++ (s.reports number lines).2.pending =
      s.pending ++ raisedAll s.store lines := by
  induction lines generalizing s number with
  | nil => exact (List.append_nil _).symm
  | cons line lines ih =>
    rw [reports_cons, List.flatMap_cons, List.append_assoc, ih, report_eq, runLine_log, raisedAll]
    simp only [List.nil_append, List.append_assoc]

/-- No call loses or repeats a warning. -/
theorem handed_reply (s : Session) (c : Call) :
    (s.reply c).1.handed ++ (s.reply c).2.pending = s.pending ++ raisedAll s.store c.lines := by
  cases c with
  | execute line =>
    have hpending : (s.reply (.execute line)).2.pending = s.pending ++ raised s.store line :=
      runLine_log s.store s.pending line
    rw [hpending, Call.lines, raisedAll, raisedAll, List.append_nil]
    rfl
  | take => rfl
  | runScript source => exact s.handed_reports 1 (Text.lines source)

theorem store_reply (s : Session) (c : Call) :
    (s.reply c).2.store = (trace s.store c.lines).2 := by
  cases c with
  | execute line => exact congrArg Prod.snd (s.executeAll_eq_trace [line])
  | take => rfl
  | runScript source => exact congrArg Prod.snd (s.reports_eq_trace 1 (Text.lines source))

theorem handed_replies (s : Session) (calls : List Call) :
    (s.replies calls).1.flatMap Reply.handed ++ (s.replies calls).2.pending =
      s.pending ++ raisedAll s.store (calls.flatMap Call.lines) := by
  induction calls generalizing s with
  | nil => exact (List.append_nil _).symm
  | cons c calls ih =>
    have hrest := ih (s.reply c).2
    rw [store_reply] at hrest
    calc (s.replies (c :: calls)).1.flatMap Reply.handed ++ (s.replies (c :: calls)).2.pending
      _ = (s.reply c).1.handed ++ (((s.reply c).2.replies calls).1.flatMap Reply.handed ++
            ((s.reply c).2.replies calls).2.pending) := List.append_assoc _ _ _
      _ = (s.reply c).1.handed ++ ((s.reply c).2.pending ++
            raisedAll (trace s.store c.lines).2 (calls.flatMap Call.lines)) := by rw [hrest]
      _ = s.pending ++ (raisedAll s.store c.lines ++
            raisedAll (trace s.store c.lines).2 (calls.flatMap Call.lines)) := by
        rw [← List.append_assoc, handed_reply, List.append_assoc]
      _ = s.pending ++ raisedAll s.store ((c :: calls).flatMap Call.lines) := by
        rw [← raisedAll_append, List.flatMap_cons]

/-- Whatever is asked of a new session, the warnings handed out so far and those still pending are
together the warnings that its lines have raised, in the order in which the lines were run. -/
theorem handed_and_pending_eq_raised (interactive : Bool) (calls : List Call) :
    ((fresh interactive).replies calls).1.flatMap Reply.handed ++
        ((fresh interactive).replies calls).2.pending =
      raisedAll .empty (calls.flatMap Call.lines) := by
  rw [handed_replies]
  rfl

end Session

theorem Text.linesFrom_append_feed (current cs ds : List Char) :
    linesFrom current (cs ++ '\n' :: ds) = linesFrom current (cs ++ ['\n']) ++ lines ds := by
  induction cs generalizing current with
  | nil => rfl
  | cons c cs ih =>
    rw [List.cons_append, List.cons_append, linesFrom, linesFrom]
    split
    · rw [ih, List.cons_append]
    · exact ih (c :: current)

def Report.after (count : Nat) (r : Report) : Report := { r with line := r.line + count }

namespace Session

theorem reports_append (s : Session) (number : Nat) (lines more : List (List Char)) :
    s.reports number (lines ++ more) =
      ((s.reports number lines).1 ++
          ((s.reports number lines).2.reports (number + lines.length) more).1,
        ((s.reports number lines).2.reports (number + lines.length) more).2) := by
  induction lines generalizing s number with
  | nil => rfl
  | cons line lines ih =>
    have hnumber : number + 1 + lines.length = number + (line :: lines).length := by
      rw [List.length_cons]
      omega
    rw [List.cons_append, reports_cons, ih, reports_cons, hnumber, List.cons_append]

theorem reports_add (s : Session) (number count : Nat) (lines : List (List Char)) :
    s.reports (number + count) lines =
      ((s.reports number lines).1.map (Report.after count), (s.reports number lines).2) := by
  induction lines generalizing s number with
  | nil => rfl
  | cons line lines ih =>
    have hhead : (s.report (number + count) line).1 = (s.report number line).1.after count := rfl
    have hnext : (s.report (number + count) line).2 = (s.report number line).2 := rfl
    rw [reports_cons, hhead, hnext, Nat.add_right_comm, ih, reports_cons, List.map_cons]

theorem line_reports (s : Session) (number : Nat) (lines : List (List Char)) :
    (s.reports number lines).1.map Report.line = List.range' number lines.length := by
  induction lines generalizing s number with
  | nil => rfl
  | cons line lines ih =>
    rw [reports_cons, List.map_cons, ih, List.length_cons, List.range'_succ]
    rfl

/-- A script may be run in two pieces, cut after any line feed: the reports are those of the first
piece and those of the second, numbered on, and the session ends as it does in one run. Reports
are numbered from one without a gap. -/
theorem runScript_pieces_and_numbered (s : Session) :
    (∀ source more : List Char,
      let first := s.runScript (source ++ ['\n'])
      let second := first.2.runScript more
      s.runScript (source ++ '\n' :: more) =
        (first.1 ++ second.1.map (Report.after (Text.lines (source ++ ['\n'])).length),
          second.2)) ∧
    ∀ source : List Char,
      (s.runScript source).1.map Report.line = List.range' 1 (Text.lines source).length := by
  refine ⟨?_, fun source => s.line_reports 1 (Text.lines source)⟩
  intro source more first second
  have hlines : Text.lines (source ++ '\n' :: more) =
      Text.lines (source ++ ['\n']) ++ Text.lines more := Text.linesFrom_append_feed [] source more
  rw [runScript, hlines, reports_append, reports_add]
  rfl

end Session
end Reckon
