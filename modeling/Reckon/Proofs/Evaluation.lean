import Mathlib.Control.Monad.Basic
import Reckon.Proofs.Recognition
import Reckon.Proofs.Words
import Reckon.Session

/-! Running what was read. The code of an expression gives the value and the notes of the
expression itself, never lacks an operand and leaves one value; so a line does what its only
derivation says, and a division by zero is the only way in which running it can fail. -/

set_option autoImplicit false

namespace Reckon

theorem Expr.run_code (e : Expr) (store : Store) (log : List Diagnostic) :
    Machine.run store log e.code = ((e.eval store).1, log ++ (e.eval store).2) := by
  have h := runFrom_code_append store e 0 [] log []
  rw [List.append_nil] at h
  rw [Machine.run, h]
  cases e.eval store with
  | mk r notes => cases r <;> rfl

/-- Carries out a sentence by the value of its expression, without any code. -/
def Sentence.interpret (store : Store) (log : List Diagnostic) (d : Sentence) : Execution :=
  match d.expr.eval store with
  | (.error e, notes) => ⟨.error (.running e), store, log ++ notes⟩
  | (.ok v, notes) =>
    match d with
    | assign name _ => ⟨.ok (.assigned name v), store.set name v, log ++ notes⟩
    | print _ => ⟨.ok (.printed v), store, log ++ notes⟩

theorem Sentence.run_statement (d : Sentence) (store : Store) (log : List Diagnostic) :
    d.statement.run store log = d.interpret store log := by
  unfold Statement.run interpret
  rw [code_statement, Expr.run_code]
  cases d.expr.eval store with
  | mk r notes =>
    cases r with
    | error e => rfl
    | ok v => cases d <;> rfl

namespace Statement

theorem exists_sentence_of_ofLine {line : List Char} {s : Statement} (h : ofLine line = .ok s) :
    ∃ d : Sentence, d.tokens = (Scan.words line).map Spanned.token ∧ s = d.statement :=
  exists_sentence_of_line (fun _ ht => Scan.words_ne_endOfInput line ht) (Prod.ext h rfl)

theorem not_isBlank_of_ofLine {line : List Char} {s : Statement} (h : ofLine line = .ok s) :
    line.all Text.isBlank = false := by
  cases hb : line.all Text.isBlank with
  | false => rfl
  | true => simp [ofLine, Scan.tokens_eq, Scan.words_of_isBlank hb, read, readForm] at h

theorem runLine_of_ofLine {line : List Char} {s : Statement} (h : ofLine line = .ok s)
    (store : Store) (log : List Diagnostic) :
    runLine store log line = s.run store (log ++ (Scan.unknowns line).map .unknown) := by
  simp [runLine, not_isBlank_of_ofLine h, h]

end Statement

/-- Running the code of an expression is finding its value. A line that can be read does what
its only derivation says, its unknown characters being noted first. -/
theorem run_code_eq_eval_and_runLine_eq_interpret :
    (∀ (e : Expr) (store : Store) (log : List Diagnostic),
      Machine.run store log e.code = ((e.eval store).1, log ++ (e.eval store).2)) ∧
    ∀ (line : List Char) (s : Statement), Statement.ofLine line = .ok s →
      ∃ d : Sentence,
        (d.tokens = (Scan.words line).map Spanned.token ∧
          ∀ d' : Sentence, d'.tokens = (Scan.words line).map Spanned.token → d' = d) ∧
        ∀ (store : Store) (log : List Diagnostic), runLine store log line =
          d.interpret store (log ++ (Scan.unknowns line).map .unknown) := by
  refine ⟨Expr.run_code, fun line s h => ?_⟩
  obtain ⟨d, hd, rfl⟩ := Statement.exists_sentence_of_ofLine h
  have hunique : ∀ d' : Sentence, d'.tokens = (Scan.words line).map Spanned.token → d' = d :=
    fun d' h' => Sentence.tokens_injective (h'.trans hd.symm)
  refine ⟨d, ⟨hd, hunique⟩, fun store log => ?_⟩
  rw [Statement.runLine_of_ofLine h, Sentence.run_statement]

theorem runLine_difference_as_divisor :
    Statement.ofLine "print(y / (x - -x))".toList = .ok (.print
      [.load "y", .load "x", .load "x", .negate, .binary .minus, .binary .divide]) ∧
    ∃ d : Sentence,
      (d.tokens = (Scan.words "print(y / (x - -x))".toList).map Spanned.token ∧
        ∀ d' : Sentence,
          d'.tokens = (Scan.words "print(y / (x - -x))".toList).map Spanned.token → d' = d) ∧
      ∀ (store : Store) (log : List Diagnostic), runLine store log "print(y / (x - -x))".toList =
        d.interpret store (log ++ (Scan.unknowns "print(y / (x - -x))".toList).map .unknown) := by
  have h : Statement.ofLine "print(y / (x - -x))".toList = .ok (.print
      [.load "y", .load "x", .load "x", .negate, .binary .minus, .binary .divide]) := by
    decide +kernel
  exact ⟨h, run_code_eq_eval_and_runLine_eq_interpret.2 _ _ h⟩

namespace Code

/-- Every instruction finds its operands when the code begins at the given depth. -/
def Fed (start : Int) (code : Code) : Prop :=
  ∀ (before after : Code) (i : Instr), code = before ++ i :: after →
    (i.operands : Int) ≤ start + depth before

theorem fed_singleton {start : Int} {i : Instr} (h : (i.operands : Int) ≤ start) :
    Fed start [i] := by
  intro before after j hj
  rcases append_singleton_cases (show [] ++ [i] = _ from hj) with ⟨rest, hr⟩ | ⟨rfl, rfl⟩
  · simp at hr
  · simpa [depth] using h

theorem Fed.append {start : Int} {c c' : Code} (h : Fed start c)
    (h' : Fed (start + depth c) c') : Fed start (c ++ c') := by
  intro before after i hi
  rcases append_cons_cases hi with ⟨rest, hc⟩ | ⟨before', rfl, hc'⟩
  · exact h before rest i hc
  · have hle := h' before' after i hc'
    rw [depth_append]
    omega

theorem Fed.depth_pos {code : Code} (h : Fed 0 code) {pre rest : Code} (hc : code = pre ++ rest)
    (hne : pre ≠ []) : 1 ≤ depth pre := by
  rcases List.eq_nil_or_concat pre with rfl | ⟨before, i, rfl⟩
  · exact (hne rfl).elim
  · have hi := h before rest i (by simp [hc])
    rw [List.concat_eq_append, depth_append]
    simp only [depth, Instr.effect_eq]
    omega

/-- Code that finds its operands at every step, ends with one value and fails on nothing but a
division by zero. -/
structure Safe (code : Code) : Prop where
  depth_pos : ∀ pre rest : Code, code = pre ++ rest → pre ≠ [] → 1 ≤ depth pre
  depth_eq : depth code = 1
  fed : Fed 0 code
  run : ∀ (store : Store) (log : List Diagnostic),
    (∃ v, (Machine.run store log code).1 = .ok v) ∨
      (Machine.run store log code).1 = .error .divisionByZero

end Code

theorem eq_error_of_map {ε α β : Type} {f : α → β} {r : Except ε α} {e : ε}
    (h : r.map f = .error e) : r = .error e := by
  cases r with
  | error e' => simpa [Except.map] using h
  | ok a => simp [Except.map] at h

namespace Value

theorem applyReal_error {op : Operator} {x y : Binary64} {e : EvalError}
    (h : applyReal op x y = .error e) : e = .divisionByZero := by
  cases op with
  | divide =>
    by_cases hy : y.isZero = true
    · simpa [applyReal, hy, eq_comm] using h
    · simp [applyReal, hy] at h
  | _ => simp [applyReal] at h

theorem applyComplex_error {op : Operator} {z w : Complex} {e : EvalError}
    (h : applyComplex op z w = .error e) : e = .divisionByZero := by
  cases op with
  | divide =>
    by_cases hw : w.isZero = true
    · simpa [applyComplex, hw, eq_comm] using h
    · simp [applyComplex, hw] at h
  | _ => simp [applyComplex] at h

theorem apply_error {op : Operator} {v w : Value} {e : EvalError} (h : apply op v w = .error e) :
    e = .divisionByZero := by
  unfold apply at h
  split at h
  · exact applyReal_error (eq_error_of_map h)
  · exact applyComplex_error (eq_error_of_map h)

end Value

namespace Expr

theorem fed_code (e : Expr) {start : Int} (h : 0 ≤ start) : Code.Fed start e.code := by
  induction e generalizing start with
  | real x => exact Code.fed_singleton h
  | complex z => exact Code.fed_singleton h
  | load name => exact Code.fed_singleton h
  | negate e ih =>
    refine (ih h).append (Code.fed_singleton ?_)
    simp [Instr.operands]
    omega
  | root e ih =>
    refine (ih h).append (Code.fed_singleton ?_)
    simp [Instr.operands]
    omega
  | binary op left right ihl ihr =>
    refine ((ihl h).append (ihr ?_)).append (Code.fed_singleton ?_)
    · simp
      omega
    · simp [Instr.operands]
      omega

theorem eval_error {e : Expr} {store : Store} {err : EvalError}
    (h : (e.eval store).1 = .error err) : err = .divisionByZero := by
  induction e with
  | real x => simp [eval] at h
  | complex z => simp [eval] at h
  | load name => cases hg : store.get? name <;> simp [eval, hg] at h
  | negate e ih => exact ih (eq_error_of_map h)
  | root e ih => exact ih (eq_error_of_map h)
  | binary op left right ihl ihr =>
    cases hl : left.eval store with
    | mk l notes =>
      cases l with
      | error e' =>
        simp [eval, hl] at h
        exact ihl (by simp [hl, h])
      | ok v =>
        cases hr : right.eval store with
        | mk r more =>
          cases r with
          | error e' =>
            simp [eval, hl, hr] at h
            exact ihr (by simp [hr, h])
          | ok w =>
            simp [eval, hl, hr] at h
            exact Value.apply_error h

theorem safe_code (e : Expr) : Code.Safe e.code where
  depth_pos pre rest h hne := (e.fed_code (Int.le_refl 0)).depth_pos h hne
  depth_eq := e.depth_code
  fed := e.fed_code (Int.le_refl 0)
  run store log := by
    rw [run_code]
    cases h : (e.eval store).1 with
    | ok v => exact .inl ⟨v, rfl⟩
    | error err => exact .inr (by rw [eval_error h])

end Expr

theorem exists_expr_of_climb {min : Nat} {ts : List Spanned} {d : Cursor.Before ⟨ts, #[]⟩}
    (h : climb min ⟨ts, #[]⟩ = .ok d) : ∃ e : Expr, d.val.code.toList = e.code := by
  have hclimb : Reader.climb min (.ofCode ts []) = .ok d.val := by
    rw [Reader.climb, show Cursor.ofCode ts [] = ⟨ts, #[]⟩ from rfl, h]
    rfl
  obtain ⟨pre, rest, out, -, hword, hd⟩ := (parses_climb min ts).exists_of_ok hclimb
  obtain ⟨p, -, rfl⟩ := hword
  exact ⟨p.expr, by simp [hd, Cursor.ofCode]⟩

def LineResult.OnlyDivides (r : LineResult) : Prop :=
  ∀ e : EvalError, r = .error (.running e) → e = .divisionByZero

theorem onlyDivides_interpret (d : Sentence) (store : Store) (log : List Diagnostic) :
    LineResult.OnlyDivides (d.interpret store log).result := by
  intro e h
  unfold Sentence.interpret at h
  cases he : d.expr.eval store with
  | mk r notes =>
    cases r with
    | error err =>
      simp [he] at h
      exact h ▸ Expr.eval_error (by rw [he])
    | ok v => cases d <;> simp [he] at h

theorem onlyDivides_runLine (store : Store) (log : List Diagnostic) (line : List Char) :
    LineResult.OnlyDivides (runLine store log line).result := by
  cases hs : Statement.ofLine line with
  | ok s =>
    obtain ⟨d, -, rfl⟩ := Statement.exists_sentence_of_ofLine hs
    rw [Statement.runLine_of_ofLine hs, Sentence.run_statement]
    exact onlyDivides_interpret d _ _
  | error e' =>
    intro e h
    by_cases hb : line.all Text.isBlank = true <;> simp [runLine, hb, hs] at h

theorem exists_runLine_of_mem_reports {s : Session} {number : Nat} {lines : List (List Char)}
    {r : Report} (h : r ∈ (s.reports number lines).1) :
    ∃ (store : Store) (log : List Diagnostic) (line : List Char),
      r.result = (runLine store log line).result := by
  induction lines generalizing s number with
  | nil => simp [Session.reports] at h
  | cons line lines ih =>
    simp only [Session.reports] at h
    rcases List.mem_cons.1 h with rfl | h
    · exact ⟨s.store, s.pending, line, rfl⟩
    · exact ih h

theorem onlyDivides_reports (s : Session) (number : Nat) (lines : List (List Char)) :
    ∀ r ∈ (s.reports number lines).1, LineResult.OnlyDivides r.result := by
  intro r hr
  obtain ⟨store, log, line, h⟩ := exists_runLine_of_mem_reports hr
  rw [h]
  exact onlyDivides_runLine store log line

/-- Whatever is compiled is safe to run, and so no line and no script ever fails for want of an
operand or with values left over. -/
theorem code_safe_and_lines_onlyDivide :
    (∀ (min : Nat) (ts : List Spanned) (d : Cursor.Before ⟨ts, #[]⟩),
      climb min ⟨ts, #[]⟩ = .ok d → Code.Safe d.val.code.toList) ∧
    (∀ (line : List Char) (s : Statement), Statement.ofLine line = .ok s → Code.Safe s.code) ∧
    (∀ (store : Store) (log : List Diagnostic) (line : List Char),
      LineResult.OnlyDivides (runLine store log line).result) ∧
    (∀ (s : Session) (line : List Char), LineResult.OnlyDivides (s.execute line).1) ∧
    ∀ (s : Session) (source : List Char), ∀ r ∈ (s.runScript source).1,
      LineResult.OnlyDivides r.result := by
  refine ⟨fun min ts d h => ?_, fun line s h => ?_, onlyDivides_runLine, ?_, ?_⟩
  · obtain ⟨e, he⟩ := exists_expr_of_climb h
    exact he ▸ e.safe_code
  · obtain ⟨d, -, rfl⟩ := Statement.exists_sentence_of_ofLine h
    exact d.code_statement ▸ d.expr.safe_code
  · exact fun s line => onlyDivides_runLine s.store s.pending line
  · exact fun s source => onlyDivides_reports s 1 (Text.lines source)

theorem product_safe_and_second_line_onlyDivides :
    (∃ d : Cursor.Before ⟨[⟨.operator .minus, 0, 1⟩, ⟨.name "x", 1, 2⟩, ⟨.operator .times, 2, 3⟩,
        ⟨.name "y", 3, 4⟩, ⟨.operator .plus, 4, 5⟩], #[]⟩,
      climb 2 _ = .ok d ∧ d.val.code.toList = [.load "x", .negate, .load "y", .binary .times] ∧
        Code.Safe d.val.code.toList) ∧
    (Statement.ofLine "z = sqrt(-x) / 2".toList = .ok (.assign "z"
        [.load "x", .negate, .root, .real 2, .binary .divide]) ∧
      Code.Safe [.load "x", .negate, .root, .real 2, .binary .divide]) ∧
    ∃ r ∈ ((Session.fresh false).runScript "y = 2\nx = y / (y - y)".toList).1,
      r.result = .error (.running .divisionByZero) ∧ LineResult.OnlyDivides r.result := by
  refine ⟨?_, ?_, ?_⟩
  · have h : (climb 2 ⟨[⟨.operator .minus, 0, 1⟩, ⟨.name "x", 1, 2⟩, ⟨.operator .times, 2, 3⟩,
        ⟨.name "y", 3, 4⟩, ⟨.operator .plus, 4, 5⟩], #[]⟩).map (·.val.code.toList) =
        .ok [.load "x", .negate, .load "y", .binary .times] := by decide +kernel
    obtain ⟨d, hd, hc⟩ := exists_of_map_eq_ok h
    exact ⟨d, hd, hc, code_safe_and_lines_onlyDivide.1 2 _ d hd⟩
  · have h : Statement.ofLine "z = sqrt(-x) / 2".toList = .ok (.assign "z"
        [.load "x", .negate, .root, .real 2, .binary .divide]) := by decide +kernel
    exact ⟨h, code_safe_and_lines_onlyDivide.2.1 _ _ h⟩
  · have h : .error (.running .divisionByZero) ∈
        ((Session.fresh false).runScript "y = 2\nx = y / (y - y)".toList).1.map Report.result := by
      decide +kernel
    obtain ⟨r, hr, he⟩ := List.mem_map.1 h
    exact ⟨r, hr, he, code_safe_and_lines_onlyDivide.2.2.2.2 _ _ r hr⟩

end Reckon
