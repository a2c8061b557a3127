import Reckon.Proofs.Calls
import Reckon.Proofs.Independence
import Reckon.Proofs.Restore

/-! A name without a value stands for zero. Code cannot tell whether a zero that it reads was
stored or put in for a name that was missing; only the notes can. So a line does the same after
its missing names have been set to zero, and has then nothing to say about them. -/

set_option autoImplicit false

namespace Reckon
namespace Store

/-- The store with zero under each of the names that has no value. -/
def withZeros (store : Store) : List String → Store
  | [] => store
  | name :: names =>
    (if (store.get? name).isNone then store.set name (.real 0) else store).withZeros names

@[simp] theorem withZeros_nil (store : Store) : store.withZeros [] = store := rfl

theorem get?_withZeros (store : Store) (names : List String) (name : String) :
    (store.withZeros names).get? name =
      (store.get? name).or (if name ∈ names then some (.real 0) else none) := by
  induction names generalizing store with
  | nil => simp
  | cons other names ih =>
    rw [withZeros, ih]
    by_cases hname : name = other
    · subst hname
      cases hv : store.get? name <;> simp [hv]
    · cases hv : store.get? other <;> simp [hname]

theorem after_withZeros (store : Store) (names : List String) (e : Option Entry) :
    (store.withZeros names).after e = (store.after e).withZeros names := by
  refine ext_get? fun name => ?_
  rw [get?_after, get?_withZeros, get?_withZeros, get?_after, Option.or_assoc]

theorem missing_eq_nil_iff {store : Store} {names : List String} :
    store.missing names = [] ↔ ∀ name ∈ names, store.get? name ≠ none := by
  simp [missing, List.filter_eq_nil_iff]

/-- Every name reads the same in both stores, be it by default. -/
def Alike (s t : Store) : Prop := ∀ name, (Machine.load s name).1 = (Machine.load t name).1

theorem alike_withZeros (store : Store) (names : List String) :
    Alike (store.withZeros names) store := by
  intro name
  cases hv : store.get? name with
  | none => by_cases hname : name ∈ names <;> simp [Machine.load, get?_withZeros, hv, hname]
  | some v => simp [Machine.load, get?_withZeros, hv]

end Store

namespace Machine

theorem step_alike {s t : Store} (h : s.Alike t) (position : Nat) (stack : List Value)
    (i : Instr) : (step s position stack i).1 = (step t position stack i).1 := by
  cases i with
  | load name => simp [step, h name]
  | _ => rfl

theorem runFrom_alike {s t : Store} (h : s.Alike t) (position : Nat) (stack : List Value)
    (log log' : List Diagnostic) (code : Code) :
    (runFrom s position stack log code).1 = (runFrom t position stack log' code).1 := by
  induction code generalizing position stack log log' with
  | nil => rcases stack with _ | ⟨v, _ | ⟨w, rest⟩⟩ <;> rfl
  | cons i code ih =>
    have hstep := step_alike h position stack i
    rcases hs : step s position stack i with ⟨e | next, notes⟩ <;>
      rcases ht : step t position stack i with ⟨e' | next', notes'⟩ <;> simp [hs, ht] at hstep
    · simp [runFrom, hs, ht, hstep]
    · subst hstep
      simp only [runFrom, hs, ht]
      exact ih (position + 1) next (log ++ notes) (log' ++ notes')

theorem run_alike {s t : Store} (h : s.Alike t) (log log' : List Diagnostic) (code : Code) :
    (run s log code).1 = (run t log' code).1 := runFrom_alike h 0 [] log log' code

theorem mem_loads_of_mem_readsFrom {store : Store} {position : Nat} {stack : List Value}
    {code : Code} {name : String} (h : name ∈ readsFrom store position stack code) :
    name ∈ Code.loads code := by
  induction code generalizing position stack with
  | nil => simp [readsFrom] at h
  | cons i code ih =>
    rw [readsFrom] at h
    rcases List.mem_append.1 h with h | h
    · simp [h]
    · cases hstep : (step store position stack i).1 with
      | error e => simp [hstep] at h
      | ok next =>
        rw [hstep] at h
        simp [ih h]

theorem missing_reads_withZeros {store : Store} {code : Code} {names : List String}
    (h : ∀ name ∈ Code.loads code, store.get? name = none → name ∈ names) :
    (store.withZeros names).missing (reads (store.withZeros names) code) = [] := by
  rw [Store.missing_eq_nil_iff]
  intro name hread hnone
  have hload := mem_loads_of_mem_readsFrom hread
  cases hv : store.get? name with
  | none => simp [Store.get?_withZeros, hv, h name hload hv] at hnone
  | some v => simp [Store.get?_withZeros, hv] at hnone

end Machine

def Diagnostic.isUndefined : Diagnostic → Bool
  | unknown _ => false
  | undefined _ => true

theorem Store.filter_missing (store : Store) (names : List String) :
    (store.missing names).filter (fun d => !d.isUndefined) = [] := by
  rw [List.filter_eq_nil_iff]
  intro d hd
  obtain ⟨name, -, rfl⟩ := List.mem_map.1 hd
  simp [Diagnostic.isUndefined]

theorem filter_map_unknown (us : List Unknown) :
    (us.map Diagnostic.unknown).filter (fun d => !d.isUndefined) = us.map .unknown := by
  simp [List.filter_eq_self, Diagnostic.isUndefined]

theorem Statement.run_alike {s t : Store} (h : s.Alike t) (statement : Statement)
    (log : List Diagnostic) :
    (statement.run s log).result = (statement.run t log).result := by
  have hrun := Machine.run_alike h log log statement.code
  rw [Statement.run, Statement.run]
  rcases hs : Machine.run s log statement.code with ⟨e | v, notes⟩ <;>
    rcases ht : Machine.run t log statement.code with ⟨e' | v', notes'⟩ <;> simp [hs, ht] at hrun
  · simp [hrun]
  · cases statement <;> simp [hrun]

namespace Line

theorem runLine_alike {s t : Store} (h : s.Alike t) (log : List Diagnostic) (line : List Char) :
    (runLine s log line).result = (runLine t log line).result := by
  unfold runLine
  split
  · rfl
  · cases Statement.ofLine line with
    | error e => rfl
    | ok statement => exact statement.run_alike h _

theorem raised_withZeros {store : Store} {line : List Char} {names : List String}
    (h : ∀ name ∈ reads line, store.get? name = none → name ∈ names) :
    raised (store.withZeros names) line =
      (raised store line).filter (fun d => !d.isUndefined) := by
  unfold raised
  by_cases hblank : Text.trim line = []
  · simp [hblank]
  · cases hs : Statement.ofLine line with
    | error e => simp [hblank, filter_map_unknown]
    | ok s =>
      simp only [reads, hs] at h
      simp [hblank, filter_map_unknown, Store.filter_missing, Machine.missing_reads_withZeros h]

theorem writable_of_mem_reads {line : List Char} {name : String} (h : name ∈ reads line) :
    (Token.name name).Writable := by
  cases hs : Statement.ofLine line with
  | error e => simp [reads, hs] at h
  | ok s =>
    obtain ⟨d, hd, rfl⟩ := Statement.exists_sentence_of_ofLine hs
    have hcode : ∀ i ∈ d.expr.code, i.Writable := by
      refine Sentence.writable_code fun t ht => ?_
      rw [hd] at ht
      obtain ⟨u, hu, rfl⟩ := List.mem_map.1 ht
      exact Scan.writable_of_mem_words hu
    simp only [reads, hs, d.code_statement, Code.loads, List.mem_flatMap] at h
    obtain ⟨i, hi, hname⟩ := h
    cases i with
    | load other =>
      obtain rfl : name = other := by simpa [Instr.name?] using hname
      exact hcode _ hi
    | _ => simp [Instr.name?] at hname

def zero (name : String) : List Char := name.toList ++ [' ', '=', ' ', '0']

theorem zero_eq_line (name : String) : zero name = (Entry.line (name, .real 0)).toList := by
  have hchars : (Value.real 0).chars = ['0'] := by decide +kernel
  simp [zero, Entry.toList_line, hchars]

theorem runLine_zero {name : String} (h : (Token.name name).Writable) (store : Store) :
    runLine store [] (zero name) =
      ⟨.ok (.assigned name (.real 0)), store.set name (.real 0), []⟩ := by
  have hfinite : (Value.real 0).isFinite = true := by decide +kernel
  rw [zero_eq_line]
  exact @runLine_line (name, .real 0) h hfinite store

/-- Setting names to zero line by line, in any order and as often as one likes, is putting zeros
where there is no value. -/
theorem trace_zeros {store : Store} {names : List String}
    (hnames : ∀ name ∈ names, (Token.name name).Writable)
    (hstore : ∀ name ∈ names, store.get? name = none ∨ store.get? name = some (.real 0)) :
    trace store (names.map zero) =
      (names.map fun name => .ok (.assigned name (.real 0)), store.withZeros names) ∧
    raisedAll store (names.map zero) = [] := by
  induction names generalizing store with
  | nil => simp [trace, raisedAll]
  | cons name names ih =>
    obtain ⟨hname, hnames⟩ := List.forall_mem_cons.1 hnames
    obtain ⟨hfirst, hstore⟩ := List.forall_mem_cons.1 hstore
    have hrun := runLine_zero hname store
    have hraised : raised store (zero name) = [] := by
      have hlog := runLine_log store [] (zero name)
      simpa [hrun] using hlog.symm
    have hset : store.set name (.real 0) =
        if (store.get? name).isNone then store.set name (.real 0) else store := by
      rcases hfirst with hnone | hzero
      · simp [hnone]
      · refine Store.ext_get? fun other => ?_
        by_cases hother : other = name <;> simp [hzero, hother]
    obtain ⟨htrace, hrest⟩ := @ih (store.set name (.real 0)) hnames (by
      intro other hmem
      by_cases hother : other = name
      · simp [hother]
      · simpa [hother] using hstore other hmem)
    rw [List.map_cons, trace, raisedAll, hrun, hraised, htrace, hrest, Store.withZeros, ← hset]
    simp

end Line

/-- Over the zeros for the names that code reads and the store lacks, the code has the same result
and nothing is noted; over the store itself every such name is noted each time that it is read.
So a line has the same result after lines that set to zero the names that it reads and that have no
value, the store then differs by those zeros only, and of its warnings only those about missing
names are gone. -/
theorem run_over_zeros_and_runLine_after_zero_lines :
    (∀ (store : Store) (log : List Diagnostic) (code : Code),
      (Machine.run (store.withZeros (Code.loads code)) log code).1 =
        (Machine.run store log code).1 ∧
      (Machine.run (store.withZeros (Code.loads code)) log code).2 = log ∧
      (Machine.run store log code).2 = log ++ store.missing (Machine.reads store code)) ∧
    ∀ (store : Store) (line : List Char) (names : List String),
      (∀ name, name ∈ names ↔ name ∈ Line.reads line ∧ store.get? name = none) →
      (trace store (names.map Line.zero)).1 =
        names.map (fun name => .ok (.assigned name (.real 0))) ∧
      raisedAll store (names.map Line.zero) = [] ∧
      ∀ log : List Diagnostic,
        let before := runLine store log line
        let after := runLine (trace store (names.map Line.zero)).2 log line
        after.result = before.result ∧
        (∀ name, after.store.get? name = (before.store.get? name).or
          (if name ∈ names then some (.real 0) else none)) ∧
        ∃ notes, before.log = log ++ notes ∧
          after.log = log ++ notes.filter (fun d => !d.isUndefined) := by
  refine ⟨fun store log code => ⟨?_, ?_, Machine.run_log store log code⟩,
    fun store line names hnames => ?_⟩
  · exact Machine.run_alike (store.alike_withZeros _) log log code
  · rw [Machine.run_log, Machine.missing_reads_withZeros fun name h _ => h, List.append_nil]
  · obtain ⟨htrace, hraised⟩ := @Line.trace_zeros store names
      (fun name h => Line.writable_of_mem_reads ((hnames name).1 h).1)
      (fun name h => .inl ((hnames name).1 h).2)
    have hresult : ∀ log, (runLine (store.withZeros names) log line).result =
        (runLine store log line).result :=
      fun log => Line.runLine_alike (store.alike_withZeros names) log line
    simp only [htrace]
    refine ⟨trivial, hraised, fun log => ⟨hresult log, fun name => ?_, raised store line, ?_, ?_⟩⟩
    · rw [runLine_store, hresult, Store.after_withZeros, Store.get?_withZeros, ← runLine_store]
    · exact runLine_log store log line
    · rw [runLine_log, Line.raised_withZeros fun name h hnone => (hnames name).2 ⟨h, hnone⟩]

theorem sum_stored_under_own_missing_name :
    let line := "x = x + y $".toList
    (∀ name, name ∈ ["y", "x", "y"] ↔ name ∈ Line.reads line ∧ Store.empty.get? name = none) ∧
    let after := runLine (trace .empty (["y", "x", "y"].map Line.zero)).2 [] line
    after.result = .ok (.assigned "x" (.real 0)) ∧ after.log = [.unknown ⟨'$', 10⟩] := by
  intro line
  have hreads : Line.reads line = ["x", "y"] := by decide +kernel
  have hnames : ∀ name, name ∈ ["y", "x", "y"] ↔
      name ∈ Line.reads line ∧ Store.empty.get? name = none := by
    intro name
    rw [hreads]
    simp
    tauto
  have hbefore : (runLine .empty [] line).result = .ok (.assigned "x" (.real 0)) ∧
      (runLine .empty [] line).log = [.unknown ⟨'$', 10⟩, .undefined "x", .undefined "y"] := by
    decide +kernel
  obtain ⟨-, -, hafter⟩ := run_over_zeros_and_runLine_after_zero_lines.2 .empty line _ hnames
  obtain ⟨hresult, -, notes, hlog, hrest⟩ := hafter []
  refine ⟨hnames, hresult.trans hbefore.1, ?_⟩
  rw [hbefore.2, List.nil_append] at hlog
  rw [hrest, ← hlog]
  rfl

end Reckon
