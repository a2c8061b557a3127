import Reckon.Proofs.History

/-! Whose warnings a report holds. Every report of a script takes all the warnings that are
pending after its line, so the first one also takes those that were pending before the script; all
others hold what their own line raised. -/

set_option autoImplicit false

namespace Reckon

/-- Warnings that are there when a line comes stay in front of its own and change nothing else. -/
theorem runLine_eq_append (store : Store) (log : List Diagnostic) (line : List Char) :
    runLine store log line = ⟨(runLine store [] line).result, (runLine store [] line).store,
      log ++ (runLine store [] line).log⟩ := by
  obtain ⟨r, notes, h⟩ := exists_runLine_eq store line
  rw [h, h, List.nil_append]

/-- The warnings that each of the lines raises itself, over the store that the lines before it
leave. -/
def ownNotes (store : Store) : List (List Char) → List (List Diagnostic)
  | [] => []
  | line :: lines =>
    (runLine store [] line).log :: ownNotes (runLine store [] line).store lines

def headed (pending : List Diagnostic) : List (List Diagnostic) → List (List Diagnostic)
  | [] => []
  | notes :: more => (pending ++ notes) :: more

@[simp] theorem headed_nil (groups : List (List Diagnostic)) : headed [] groups = groups := by
  cases groups <;> rfl

theorem headed_eq_self_iff {pending : List Diagnostic} {groups : List (List Diagnostic)} :
    headed pending groups = groups ↔ pending = [] ∨ groups = [] := by
  cases groups with
  | nil => simp [headed]
  | cons notes more => simp [headed]

@[simp] theorem ownNotes_eq_nil_iff {store : Store} {lines : List (List Char)} :
    ownNotes store lines = [] ↔ lines = [] := by
  cases lines <;> simp [ownNotes]

namespace Session

/-- The sessions that calls can lead to. A copy of a session is the same session, so that copying
adds none. -/
inductive Reachable : Session → Prop
  | fresh (interactive : Bool) : Reachable (.fresh interactive)
  | execute {s : Session} (h : Reachable s) (line : List Char) : Reachable (s.execute line).2
  | take {s : Session} (h : Reachable s) : Reachable s.takeDiagnostics.2
  | runScript {s : Session} (h : Reachable s) (source : List Char) :
      Reachable (s.runScript source).2

theorem report_eq (s : Session) (number : Nat) (line : List Char) :
    s.report number line =
      (⟨number, (runLine s.store [] line).result, s.pending ++ (runLine s.store [] line).log⟩,
        ⟨(runLine s.store [] line).store, [], s.interactive⟩) := by
  rw [report, execute, runLine_eq_append]
  rfl

theorem reports_cons (s : Session) (number : Nat) (line : List Char) (lines : List (List Char)) :
    s.reports number (line :: lines) =
      ((s.report number line).1 :: ((s.report number line).2.reports (number + 1) lines).1,
        ((s.report number line).2.reports (number + 1) lines).2) := rfl

theorem diagnostics_reports (s : Session) (number : Nat) (lines : List (List Char)) :
    (s.reports number lines).1.map Report.diagnostics =
      headed s.pending (ownNotes s.store lines) := by
  induction lines generalizing s number with
  | nil => rfl
  | cons line lines ih =>
    rw [reports_cons, List.map_cons, ih, report_eq, headed_nil]
    rfl

theorem Reachable.store_induction {P : Store → Prop} (hempty : P .empty)
    (hline : ∀ (store : Store) (log : List Diagnostic) (line : List Char),
      P store → P (runLine store log line).store) {s : Session} (h : s.Reachable) : P s.store := by
  have hreports : ∀ (lines : List (List Char)) (s : Session) (number : Nat),
      P s.store → P (s.reports number lines).2.store := by
    intro lines
    induction lines with
    | nil => exact fun s number hs => hs
    | cons line lines ih => exact fun s number hs => ih _ _ (hline s.store s.pending line hs)
  induction h with
  | fresh interactive => exact hempty
  | execute h line ih => exact hline _ _ line ih
  | take h ih => exact ih
  | runScript h source ih => exact hreports _ _ _ ih

/-- The reports of a script hold the warnings of their own lines, the first one after those that
were pending. So each holds just its own line's exactly if nothing was pending or there is no
line to report on. -/
theorem diagnostics_runScript_and_own_iff (s : Session) (source : List Char) :
    (s.runScript source).1.map Report.diagnostics =
      headed s.pending (ownNotes s.store (Text.lines source)) ∧
    ((s.runScript source).1.map Report.diagnostics = ownNotes s.store (Text.lines source) ↔
      s.pending = [] ∨ Text.lines source = []) := by
  have hall : (s.runScript source).1.map Report.diagnostics =
      headed s.pending (ownNotes s.store (Text.lines source)) := s.diagnostics_reports 1 _
  refine ⟨hall, ?_⟩
  rw [hall, headed_eq_self_iff, ownNotes_eq_nil_iff]

/-- A warning that nobody took stands in the report of a line that raises none. -/
theorem not_own_after_untaken_warning :
    let s := ((Session.fresh false).execute "print(y)".toList).2
    s.Reachable ∧ (s.runScript "x = 1".toList).1.map Report.diagnostics = [[.undefined "y"]] ∧
      ownNotes s.store (Text.lines "x = 1".toList) = [[]] ∧
      ¬ ∀ s : Session, s.Reachable → ∀ source : List Char,
        (s.runScript source).1.map Report.diagnostics = ownNotes s.store (Text.lines source) := by
  intro s
  have hreach : s.Reachable := .execute (.fresh false) _
  have hreport : (s.runScript "x = 1".toList).1.map Report.diagnostics = [[.undefined "y"]] := by
    decide +kernel
  have hown : ownNotes s.store (Text.lines "x = 1".toList) = [[]] := by decide +kernel
  refine ⟨hreach, hreport, hown, fun hclaim => ?_⟩
  have heq := hclaim s hreach "x = 1".toList
  rw [hreport, hown] at heq
  cases heq

end Session
end Reckon
