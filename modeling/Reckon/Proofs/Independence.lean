import Mathlib.Data.List.Sort
import Reckon.Proofs.History
import Reckon.Proofs.Notes

/-! Independent lines. What a line does depends on the store only through the names in its
expression, and it changes the store only under the name that it assigns to. Two lines neither of
which assigns to a name of the other can therefore change places. -/

set_option autoImplicit false

namespace Reckon

theorem mem_iff_lookup {entries : List Entry} (h : Increasing entries) {name : String}
    {value : Value} : (name, value) ∈ entries ↔ entries.lookup name = some value := by
  rw [List.lookup_eq_some_iff]
  constructor
  · intro hmem
    obtain ⟨before, after, rfl⟩ := List.append_of_mem hmem
    refine ⟨before, after, rfl, fun e he => ?_⟩
    have hlt : e.1 < name := (List.pairwise_append.1 h).2.2 e he _ List.mem_cons_self
    have hne : name ≠ e.1 := fun heq => String.lt_irrefl _ (heq ▸ hlt)
    simpa using hne
  · rintro ⟨before, after, rfl, -⟩
    simp

namespace Store

/-- A store is what is found under each name, since its names stand in order. -/
theorem ext_get? {s t : Store} (h : ∀ name, s.get? name = t.get? name) : s = t := by
  have hmem : ∀ e : Entry, e ∈ s.entries ↔ e ∈ t.entries := by
    rintro ⟨name, value⟩
    have hlookup : s.entries.lookup name = t.entries.lookup name := h name
    rw [mem_iff_lookup s.increasing, mem_iff_lookup t.increasing, hlookup]
  have hirrefl : Std.Irrefl fun a b : Entry => a.1 < b.1 := ⟨fun a => String.lt_irrefl a.1⟩
  have hantisymm : Std.Antisymm fun a b : Entry => a.1 < b.1 :=
    ⟨fun a b hab hba => (String.lt_irrefl a.1 (String.lt_trans hab hba)).elim⟩
  have hentries : s.entries = t.entries := s.increasing.eq_of_mem_iff t.increasing hmem
  cases s
  cases t
  cases hentries
  rfl

theorem set_comm {name other : String} (h : name ≠ other) (s : Store) (v w : Value) :
    (s.set name v).set other w = (s.set other w).set name v := by
  refine ext_get? fun n => ?_
  rw [get?_set, get?_set, get?_set, get?_set]
  by_cases hn : n = name
  · rw [if_pos hn, if_pos hn, if_neg (hn ▸ h)]
  · rw [if_neg hn, if_neg hn]

theorem after_comm {e e' : Option Entry} (h : ∀ a ∈ e, ∀ b ∈ e', a.1 ≠ b.1) (s : Store) :
    (s.after e).after e' = (s.after e').after e := by
  cases e with
  | none => rfl
  | some a =>
    cases e' with
    | none => rfl
    | some b => exact set_comm (h a rfl b rfl) s a.2 b.2

def Agree (names : List String) (s t : Store) : Prop := ∀ name ∈ names, s.get? name = t.get? name

theorem agree_after {names : List String} {e : Option Entry} (h : ∀ a ∈ e, a.1 ∉ names)
    (s : Store) : Agree names s (s.after e) := by
  intro name hname
  cases e with
  | none => rfl
  | some a =>
    have hne : name ≠ a.1 := fun heq => h a rfl (heq ▸ hname)
    exact ((get?_set s a.1 name a.2).trans (if_neg hne)).symm

theorem agree_append {names more : List String} {s t : Store} :
    Agree (names ++ more) s t ↔ Agree names s t ∧ Agree more s t := List.forall_mem_append

end Store

namespace Machine

theorem step_congr {s t : Store} {i : Instr} (h : Store.Agree i.name?.toList s t) (position : Nat)
    (stack : List Value) : step s position stack i = step t position stack i := by
  cases i with
  | load name =>
    have hload : load s name = load t name := by
      rw [load, load, h name (List.mem_singleton.2 rfl)]
    rw [step, step, hload]
  | _ => rfl

/-- A run depends on the store only through the names in the code. -/
theorem runFrom_congr {s t : Store} {code : Code} (h : Store.Agree (Code.loads code) s t)
    (position : Nat) (stack : List Value) (log : List Diagnostic) :
    runFrom s position stack log code = runFrom t position stack log code := by
  induction code generalizing position stack log with
  | nil => rcases stack with _ | ⟨v, _ | ⟨w, rest⟩⟩ <;> rfl
  | cons i code ih =>
    obtain ⟨hi, hcode⟩ := Store.agree_append.1 h
    rw [runFrom, runFrom, step_congr hi]
    rcases step t position stack i with ⟨e | next, notes⟩
    · rfl
    · exact ih hcode (position + 1) next (log ++ notes)

end Machine

theorem Statement.run_congr {s t : Store} {statement : Statement}
    (h : Store.Agree (Code.loads statement.code) s t) (log : List Diagnostic) :
    (statement.run s log).result = (statement.run t log).result ∧
      (statement.run s log).log = (statement.run t log).log := by
  have hrun : Machine.run s log statement.code = Machine.run t log statement.code :=
    Machine.runFrom_congr h 0 [] log
  rw [Statement.run, Statement.run, hrun]
  rcases Machine.run t log statement.code with ⟨e | v, notes⟩
  · exact ⟨rfl, rfl⟩
  · cases statement <;> exact ⟨rfl, rfl⟩

theorem Statement.eq_assign_of_assigned {s : Statement} {store : Store} {log : List Diagnostic}
    {e : Entry} (h : e ∈ LineResult.assigned? (s.run store log).result) :
    ∃ code, s = .assign e.1 code := by
  rw [Statement.run] at h
  split at h
  · cases h
  · cases s with
    | assign name code =>
      cases h
      exact ⟨code, rfl⟩
    | print code => cases h

namespace Line

/-- The names in the expression of a line; a line that is no statement reads none. -/
def reads (line : List Char) : List String :=
  match Statement.ofLine line with
  | .ok s => Code.loads s.code
  | .error _ => []

def writes (line : List Char) : List String :=
  match Statement.ofLine line with
  | .ok (.assign name _) => [name]
  | _ => []

structure Independent (l m : List Char) : Prop where
  left_unread : ∀ name ∈ writes l, name ∉ reads m
  right_unread : ∀ name ∈ writes m, name ∉ reads l
  apart : ∀ name ∈ writes l, name ∉ writes m

theorem mem_writes_of_assigned (store : Store) (log : List Diagnostic) (line : List Char) :
    ∀ e ∈ LineResult.assigned? (runLine store log line).result, e.1 ∈ writes line := by
  intro e he
  cases hs : Statement.ofLine line with
  | error err =>
    have hnone : LineResult.assigned? (runLine store log line).result = none := by
      rw [runLine, hs]
      split <;> rfl
    rw [hnone] at he
    cases he
  | ok s =>
    rw [Statement.runLine_of_ofLine hs] at he
    obtain ⟨code, rfl⟩ := Statement.eq_assign_of_assigned he
    rw [writes, hs]
    exact List.mem_singleton.2 rfl

theorem runLine_congr {s t : Store} {line : List Char} (h : Store.Agree (reads line) s t)
    (log : List Diagnostic) :
    (runLine s log line).result = (runLine t log line).result ∧
      (runLine s log line).log = (runLine t log line).log := by
  unfold runLine
  split
  · exact ⟨rfl, rfl⟩
  · cases hs : Statement.ofLine line with
    | error e => exact ⟨rfl, rfl⟩
    | ok statement =>
      rw [reads, hs] at h
      exact Statement.run_congr h _

theorem runLine_of_agree {s t : Store} {line : List Char} {r : LineResult}
    {notes : List Diagnostic} (h : Store.Agree (reads line) s t)
    (hs : ∀ log, runLine s log line = ⟨r, s.after (LineResult.assigned? r), log ++ notes⟩) :
    ∀ log, runLine t log line = ⟨r, t.after (LineResult.assigned? r), log ++ notes⟩ := by
  obtain ⟨r', notes', ht⟩ := exists_runLine_eq t line
  obtain ⟨hresult, hlog⟩ := runLine_congr h []
  rw [hs, ht] at hresult hlog
  obtain rfl : r = r' := hresult
  obtain rfl : notes = notes' := hlog
  exact ht

/-- Two independent lines may be run in either order, whatever the store. Each has the same result
and raises the same warnings in both, whether it succeeds or fails, and the store at the end is the
same. -/
theorem Independent.runLine_both_orders {l m : List Char} (h : Independent l m) (store : Store) :
    ∃ (r r' : LineResult) (notes notes' : List Diagnostic) (afterLeft afterRight final : Store),
      (∀ log, runLine store log l = ⟨r, afterLeft, log ++ notes⟩) ∧
      (∀ log, runLine afterLeft log m = ⟨r', final, log ++ notes'⟩) ∧
      (∀ log, runLine store log m = ⟨r', afterRight, log ++ notes'⟩) ∧
      ∀ log, runLine afterRight log l = ⟨r, final, log ++ notes⟩ := by
  obtain ⟨r, notes, hl⟩ := exists_runLine_eq store l
  obtain ⟨r', notes', hm⟩ := exists_runLine_eq store m
  have hwl := mem_writes_of_assigned store [] l
  have hwm := mem_writes_of_assigned store [] m
  rw [hl] at hwl
  rw [hm] at hwm
  have hleft : Store.Agree (reads m) store (store.after (LineResult.assigned? r)) :=
    Store.agree_after (fun e he => h.left_unread e.1 (hwl e he)) store
  have hright : Store.Agree (reads l) store (store.after (LineResult.assigned? r')) :=
    Store.agree_after (fun e he => h.right_unread e.1 (hwm e he)) store
  have hfinal := Store.after_comm
    (fun e he e' he' heq => h.apart e.1 (hwl e he) (heq ▸ hwm e' he')) store
  refine ⟨r, r', notes, notes', _, _, _, hl, runLine_of_agree hleft hm, hm, ?_⟩
  rw [hfinal]
  exact runLine_of_agree hright hl

theorem failed_division_and_sum_in_both_orders :
    let l := "x = a / (b - b) $".toList
    let m := "y = 2 * a + z".toList
    Independent l m ∧
    ∃ (r r' : LineResult) (notes notes' : List Diagnostic) (afterLeft afterRight final : Store),
      (∀ log, runLine .empty log l = ⟨r, afterLeft, log ++ notes⟩) ∧
      (∀ log, runLine afterLeft log m = ⟨r', final, log ++ notes'⟩) ∧
      (∀ log, runLine .empty log m = ⟨r', afterRight, log ++ notes'⟩) ∧
      ∀ log, runLine afterRight log l = ⟨r, final, log ++ notes⟩ := by
  intro l m
  have hl : reads l = ["a", "b", "b"] ∧ writes l = ["x"] := by decide +kernel
  have hm : reads m = ["a", "z"] ∧ writes m = ["y"] := by decide +kernel
  have h : Independent l m := by
    constructor
    · rw [hl.2, hm.1]
      simp
    · rw [hm.2, hl.1]
      simp
    · rw [hl.2, hm.2]
      simp
  exact ⟨h, h.runLine_both_orders .empty⟩

end Line
end Reckon
