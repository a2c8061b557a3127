import Mathlib.Order.Bounds.Defs
import Reckon.Proofs.Notes

/-! How a run ends, whatever the code. The depth that is counted from the instructions alone and
the stack that is really there agree up to the first failure; so counting tells which instruction
lacks an operand and how many values are left over, unless a division by zero comes first. -/

set_option autoImplicit false

namespace Reckon

theorem Binary64.isZero_iff (x : Binary64) :
    x.isZero = true ↔ ∃ negative, x = .zero negative := by
  cases x with
  | nan => simp [isZero, zero]
  | infinite negative => simp [isZero, zero]
  | finite negative units storable => simp [isZero, zero]

namespace Value

def parts : Value → List Binary64
  | real x => [x]
  | complex z => [z.re, z.im]

/-- Every part is zero, of either sign. -/
def Null (v : Value) : Prop := ∀ x ∈ v.parts, ∃ negative, x = .zero negative

theorem null_real (x : Binary64) : (real x).Null ↔ x.isZero = true := by
  simp [Null, parts, Binary64.isZero_iff]

theorem null_iff_isZero (v : Value) : v.Null ↔ v.toComplex.isZero = true := by
  cases v with
  | real x =>
    have hzero : (0 : Binary64).isZero = true := by decide +kernel
    simp [null_real, toComplex, Complex.ofReal, Complex.isZero, hzero]
  | complex z => simp [Null, parts, toComplex, Complex.isZero, Binary64.isZero_iff]

theorem apply_divide_eq_error_iff (v w : Value) :
    apply .divide v w = .error .divisionByZero ↔ w.Null := by
  have hcomplex : (applyComplex .divide v.toComplex w.toComplex).map complex =
      .error .divisionByZero ↔ w.Null := by
    rw [null_iff_isZero]
    by_cases hw : w.toComplex.isZero = true <;> simp [applyComplex, hw, Except.map]
  cases v with
  | real x =>
    cases w with
    | real y =>
      rw [null_real]
      by_cases hy : y.isZero = true <;> simp [apply, applyReal, hy, Except.map]
    | complex z => exact hcomplex
  | complex z => exact hcomplex

end Value

/-- The instruction at the index needs more operands than those before it leave. -/
def Code.Starves (code : Code) (u : Nat) : Prop :=
  ∃ i, code[u]? = some i ∧ depth (code.take u) < i.operands

namespace Machine

/-- The run comes to the instruction at the index, and the stack is then as given. -/
def Reaches (store : Store) (code : Code) (k : Nat) (stack : List Value) : Prop :=
  stackFrom? store 0 [] (code.take k) = some stack

def DividesByZeroAt (store : Store) (code : Code) (k : Nat) : Prop :=
  code[k]? = some (.binary .divide) ∧
    ∃ (v w : Value) (rest : List Value), Reaches store code k (w :: v :: rest) ∧ w.Null

theorem step_of_lt {stack : List Value} {i : Instr} (h : stack.length < i.operands)
    (store : Store) (position : Nat) :
    (step store position stack i).1 = .error (.missingOperand position) := by
  cases i with
  | negate => cases stack <;> simp_all [step, Instr.operands]
  | root => cases stack <;> simp_all [step, Instr.operands]
  | binary op =>
    rcases stack with _ | ⟨w, _ | ⟨v, rest⟩⟩
    · simp [step]
    · simp [step]
    · simp only [Instr.operands, List.length_cons] at h
      omega
  | _ => simp [Instr.operands] at h

theorem step_of_le {stack : List Value} {i : Instr} (h : i.operands ≤ stack.length)
    (store : Store) (position : Nat) :
    (∃ v, (step store position stack i).1 = .ok (v :: stack.drop i.operands)) ∨
      (step store position stack i).1 = .error .divisionByZero := by
  cases i with
  | negate => cases stack <;> simp_all [step, Instr.operands]
  | root => cases stack <;> simp_all [step, Instr.operands]
  | binary op =>
    rcases stack with _ | ⟨w, _ | ⟨v, rest⟩⟩
    · simp [Instr.operands] at h
    · simp [Instr.operands] at h
    · cases ha : Value.apply op v w with
      | error e => simp [step, ha, Except.map, Value.apply_error ha]
      | ok r => simp [step, ha, Except.map, Instr.operands]
  | _ => simp [step, Instr.operands]

theorem step_error_cases {store : Store} {position : Nat} {stack : List Value} {i : Instr}
    {e : EvalError} (h : (step store position stack i).1 = .error e) :
    (stack.length < i.operands ∧ e = .missingOperand position) ∨
      (i = .binary .divide ∧ e = .divisionByZero ∧
        ∃ (v w : Value) (rest : List Value), stack = w :: v :: rest ∧ w.Null) := by
  by_cases hlt : stack.length < i.operands
  · rw [step_of_lt hlt] at h
    exact .inl ⟨hlt, by simpa [eq_comm] using h⟩
  · rcases step_of_le (Nat.not_lt.1 hlt) store position with ⟨v, hok⟩ | herror
    · simp [hok] at h
    · obtain ⟨hi, v, w, rest, hstack, hzero⟩ := step_eq_divisionByZero_iff.1 herror
      have hnull := (Value.apply_divide_eq_error_iff v w).1 hzero
      rw [herror] at h
      exact .inr ⟨hi, by simpa [eq_comm] using h, v, w, rest, hstack, hnull⟩

/-- An instruction that is performed had its operands and changes the depth by its effect. -/
theorem length_of_step {store : Store} {position : Nat} {stack next : List Value} {i : Instr}
    (h : (step store position stack i).1 = .ok next) :
    i.operands ≤ stack.length ∧ (next.length : Int) = stack.length + i.effect := by
  by_cases hlt : stack.length < i.operands
  · simp [step_of_lt hlt] at h
  · have hle := Nat.not_lt.1 hlt
    rcases step_of_le hle store position with ⟨v, hok⟩ | herror
    · obtain rfl : v :: stack.drop i.operands = next := by simpa [hok] using h
      simp [Instr.effect_eq]
      omega
    · simp [herror] at h

theorem length_of_stackFrom? {store : Store} {position : Nat} {stack top : List Value}
    {code : Code} (h : stackFrom? store position stack code = some top) :
    Code.Fed stack.length code ∧ (top.length : Int) = stack.length + Code.depth code := by
  induction code generalizing position stack with
  | nil =>
    obtain rfl : stack = top := by simpa [stackFrom?] using h
    exact ⟨fun before after i hi => by simp at hi, by simp [Code.depth]⟩
  | cons i code ih =>
    cases hstep : (step store position stack i).1 with
    | error e => simp [stackFrom?, hstep] at h
    | ok next =>
      have hnext : stackFrom? store (position + 1) next code = some top := by
        simpa [stackFrom?, hstep] using h
      obtain ⟨hle, hlen⟩ := length_of_step hstep
      obtain ⟨hfed, htop⟩ := ih hnext
      have hhead : Code.Fed stack.length [i] := Code.fed_singleton (by omega)
      refine ⟨hhead.append ?_, ?_⟩
      · simpa [Code.depth, ← hlen] using hfed
      · simp only [Code.depth]
        omega

end Machine

namespace Code

theorem eq_take_append {code : Code} {u : Nat} {i : Instr} (h : code[u]? = some i) :
    code = code.take u ++ i :: code.drop (u + 1) := by
  obtain ⟨hu, rfl⟩ := List.getElem?_eq_some_iff.1 h
  simp

theorem Starves.lt_length {code : Code} {u : Nat} (h : code.Starves u) : u < code.length := by
  obtain ⟨i, hi, -⟩ := h
  exact (List.getElem?_eq_some_iff.1 hi).1

theorem Fed.not_starves {code : Code} (h : Fed 0 code) (u : Nat) : ¬ code.Starves u := by
  rintro ⟨i, hi, hlt⟩
  have hle := h _ _ i (eq_take_append hi)
  omega

theorem starves_take {code : Code} {u k : Nat} (h : u < k) :
    Starves (code.take k) u ↔ code.Starves u := by
  simp [Starves, List.getElem?_take_of_lt h, List.take_take, Nat.min_eq_left (Nat.le_of_lt h)]

/-- The results that counting allows where no division fails. -/
inductive Counted (code : Code) : Except EvalError Value → Prop
  | starved (u : Nat) (least : IsLeast {u | code.Starves u} u) :
      Counted code (.error (.missingOperand u))
  | leftover (d : Nat) (fed : ∀ u, ¬ code.Starves u) (count : code.depth = d) (other : d ≠ 1) :
      Counted code (.error (.leftover d))
  | value (v : Value) (fed : ∀ u, ¬ code.Starves u) (count : code.depth = 1) :
      Counted code (.ok v)

namespace Counted

variable {code : Code} {r : Except EvalError Value}

theorem eq_missingOperand_iff (h : Counted code r) (u : Nat) :
    r = .error (.missingOperand u) ↔ IsLeast {u | code.Starves u} u := by
  cases h with
  | starved u' least =>
    constructor
    · intro heq
      obtain rfl : u' = u := by simpa using heq
      exact least
    · intro hu
      rw [least.unique hu]
  | leftover d fed => simpa using fun hu : IsLeast {u | code.Starves u} u => fed u hu.1
  | value v fed => simpa using fun hu : IsLeast {u | code.Starves u} u => fed u hu.1

theorem of_fed (h : Counted code r) (hfed : ∀ u, ¬ code.Starves u) :
    0 ≤ code.depth ∧
      (∀ d : Nat, r = .error (.leftover d) ↔ code.depth = d ∧ code.depth ≠ 1) ∧
      ((∃ v, r = .ok v) ↔ code.depth = 1) := by
  cases h with
  | starved u least => exact (hfed u least.1).elim
  | leftover d _ count other =>
    refine ⟨by omega, fun e => ?_, ?_⟩
    · simp only [Except.error.injEq, EvalError.leftover.injEq]
      omega
    · simp only [reduceCtorEq, exists_false, false_iff]
      omega
  | value v _ count => simp [count]

theorem ne_divisionByZero (h : Counted code r) : r ≠ .error .divisionByZero := by
  cases h <;> simp

end Counted
end Code

namespace Machine

theorem Reaches.length_eq {store : Store} {code : Code} {k : Nat} {stack : List Value}
    (h : Reaches store code k stack) : (stack.length : Int) = Code.depth (code.take k) := by
  simpa using (length_of_stackFrom? h).2

theorem Reaches.not_starves {store : Store} {code : Code} {k u : Nat} {stack : List Value}
    (h : Reaches store code k stack) (hu : u < k) : ¬ code.Starves u := by
  rw [← Code.starves_take hu]
  exact Code.Fed.not_starves (length_of_stackFrom? h).1 u

theorem runFrom_append {store : Store} {position : Nat} {stack top : List Value} {c : Code}
    (h : stackFrom? store position stack c = some top) (log : List Diagnostic) (d : Code) :
    runFrom store position stack log (c ++ d) =
      runFrom store (position + c.length) top (log ++ store.missing (Code.loads c)) d := by
  induction c generalizing position stack log with
  | nil =>
    obtain rfl : stack = top := by simpa [stackFrom?] using h
    simp [Store.missing]
  | cons i c ih =>
    have hnotes := step_notes store position stack i
    rcases hstep : step store position stack i with ⟨e | next, notes⟩
    · simp [stackFrom?, hstep] at h
    · have hnext : stackFrom? store (position + 1) next c = some top := by
        simpa [stackFrom?, hstep] using h
      rw [hstep] at hnotes
      have hpast : position + 1 + c.length = position + (c.length + 1) := by omega
      simp [runFrom, hstep, ih hnext, ← hnotes, hpast]

theorem DividesByZeroAt.run_eq {store : Store} {code : Code} {k : Nat}
    (h : DividesByZeroAt store code k) (log : List Diagnostic) :
    run store log code =
      (.error .divisionByZero, log ++ store.missing (Code.loads (code.take k))) := by
  obtain ⟨hk, v, w, rest, hreach, hnull⟩ := h
  have hzero := (Value.apply_divide_eq_error_iff v w).2 hnull
  have hrun := runFrom_append hreach log (.binary .divide :: code.drop (k + 1))
  rw [← Code.eq_take_append hk] at hrun
  simp [run, hrun, runFrom, step, hzero, Except.map]

/-- A division by zero comes before every instruction that lacks an operand. -/
theorem DividesByZeroAt.lt_of_starves {store : Store} {code : Code} {k u : Nat}
    (h : DividesByZeroAt store code k) (hu : code.Starves u) : k < u := by
  obtain ⟨hk, v, w, rest, hreach, -⟩ := h
  by_contra hle
  rcases Nat.lt_or_eq_of_le (Nat.not_lt.1 hle) with hlt | rfl
  · exact hreach.not_starves hlt hu
  · obtain ⟨i, hi, hdepth⟩ := hu
    obtain rfl : i = .binary .divide := by simpa [hi] using hk
    have hlen := hreach.length_eq
    simp [Instr.operands] at hdepth hlen
    omega

theorem DividesByZeroAt.unique {store : Store} {code : Code} {k k' : Nat}
    (h : DividesByZeroAt store code k) (h' : DividesByZeroAt store code k') : k = k' := by
  have hfail : ∀ {j : Nat}, DividesByZeroAt store code j →
      ∃ stack, Reaches store code j stack ∧
        (step store (0 + (code.take j).length) stack (.binary .divide)).1 =
          .error .divisionByZero := by
    rintro j ⟨-, v, w, rest, hreach, hnull⟩
    have hzero := (Value.apply_divide_eq_error_iff v w).2 hnull
    exact ⟨_, hreach, step_eq_divisionByZero_iff.2 ⟨rfl, v, w, rest, rfl, hzero⟩⟩
  obtain ⟨stack, hreach, hstep⟩ := hfail h
  obtain ⟨stack', hreach', hstep'⟩ := hfail h'
  have hcode := (Code.eq_take_append h.1).symm.trans (Code.eq_take_append h'.1)
  have hlt := (List.getElem?_eq_some_iff.1 h.1).1
  have hlt' := (List.getElem?_eq_some_iff.1 h'.1).1
  have hlen := congrArg List.length (before_unique hcode hreach hreach' hstep hstep')
  simp at hlen
  omega

/-- All the ways to end: every instruction is performed, or the first that is not lacks an operand
or divides by zero. -/
theorem run_counted_or_divides (store : Store) (log : List Diagnostic) (code : Code) :
    Code.Counted code (run store log code).1 ∨ ∃ k, DividesByZeroAt store code k := by
  rcases runFrom_cases store 0 [] log code with
    ⟨stack, hstack, hrun⟩ | ⟨before, i, after, stack, e, hcode, hstack, hstep, hrun⟩
  · have hreach : Reaches store code code.length stack := by simpa [Reaches] using hstack
    have hlen := hreach.length_eq
    rw [List.take_length] at hlen
    have hfed : ∀ u, ¬ code.Starves u := fun u hu => hreach.not_starves hu.lt_length hu
    rw [run, hrun]
    rcases stack with _ | ⟨v, _ | ⟨w, rest⟩⟩
    · exact .inl (.leftover 0 hfed hlen.symm (by omega))
    · exact .inl (.value v hfed hlen.symm)
    · exact .inl (.leftover (rest.length + 2) hfed hlen.symm (by omega))
  · have hreach : Reaches store code before.length stack := by simpa [Reaches, hcode] using hstack
    have hi : code[before.length]? = some i := by simp [hcode]
    rcases step_error_cases hstep with ⟨hlt, rfl⟩ | ⟨rfl, -, v, w, rest, rfl, hnull⟩
    · have hlen := hreach.length_eq
      have hleast : IsLeast {u | code.Starves u} before.length := by
        refine ⟨⟨i, hi, by omega⟩, fun u hu => ?_⟩
        by_contra hle
        exact hreach.not_starves (Nat.not_le.1 hle) hu
      rw [run, hrun, Nat.zero_add]
      exact .inl (.starved before.length hleast)
    · exact .inr ⟨before.length, hi, v, w, rest, hreach, hnull⟩

/-- The instructions alone tell how a run ends, if it does not divide by zero: the first of them
that the count leaves without an operand is where it fails, and else the count at the end decides.
It divides by zero just when it comes to a division with a divisor of zero; that is before every
instruction that lacks an operand, and no name after it is read. -/
theorem outcome_by_count_and_first_division (store : Store) (log : List Diagnostic)
    (code : Code) :
    ((run store log code).1 ≠ .error .divisionByZero →
      (∀ u, (run store log code).1 = .error (.missingOperand u) ↔
        IsLeast {u | code.Starves u} u) ∧
      ((∀ u, ¬ code.Starves u) →
        0 ≤ code.depth ∧
        (∀ d : Nat, (run store log code).1 = .error (.leftover d) ↔
          code.depth = d ∧ code.depth ≠ 1) ∧
        ((∃ v, (run store log code).1 = .ok v) ↔ code.depth = 1))) ∧
    ((run store log code).1 = .error .divisionByZero ↔ ∃ k, DividesByZeroAt store code k) ∧
    ∀ k, DividesByZeroAt store code k →
      (∀ k', DividesByZeroAt store code k' → k' = k) ∧ (∀ u, code.Starves u → k < u) ∧
      run store log code =
        (.error .divisionByZero, log ++ store.missing (Code.loads (code.take k))) := by
  have hzero : (run store log code).1 = .error .divisionByZero ↔
      ∃ k, DividesByZeroAt store code k := by
    constructor
    · intro h
      exact (run_counted_or_divides store log code).resolve_left fun hc => hc.ne_divisionByZero h
    · rintro ⟨k, hk⟩
      rw [hk.run_eq]
  refine ⟨fun hne => ?_, hzero, fun k hk => ?_⟩
  · have hcounted := (run_counted_or_divides store log code).resolve_right
      fun hk => hne (hzero.2 hk)
    exact ⟨hcounted.eq_missingOperand_iff, hcounted.of_fed⟩
  · exact ⟨fun k' hk' => hk'.unique hk, fun u hu => hk.lt_of_starves hu, hk.run_eq log⟩

theorem first_division_before_starved_sum :
    ((run .empty [] [.real 1, .binary .minus, .root]).1 ≠ .error .divisionByZero ∧
      IsLeast {u | Code.Starves [.real 1, .binary .minus, .root] u} 1) ∧
    let code : Code := [.load "x", .complex ⟨0, .zero true⟩, .binary .divide, .binary .plus]
    DividesByZeroAt .empty code 2 ∧ code.Starves 3 ∧ 2 < 3 ∧
      run .empty [] code = (.error .divisionByZero, [.undefined "x"]) := by
  refine ⟨?_, ?_⟩
  · have hrun : (run .empty [] [.real 1, .binary .minus, .root]).1 =
        .error (.missingOperand 1) := rfl
    have hne : (run .empty [] [.real 1, .binary .minus, .root]).1 ≠ .error .divisionByZero := by
      simp [hrun]
    exact ⟨hne, (((outcome_by_count_and_first_division _ _ _).1 hne).1 1).1 hrun⟩
  · intro code
    have hnull : (Value.complex ⟨0, .zero true⟩).Null :=
      (Value.null_iff_isZero _).2 (by decide +kernel)
    have hzero : DividesByZeroAt .empty code 2 :=
      ⟨rfl, .real 0, .complex ⟨0, .zero true⟩, [], rfl, hnull⟩
    have hstarved : code.Starves 3 := ⟨.binary .plus, rfl, by decide⟩
    obtain ⟨-, hbefore, hrun⟩ := (outcome_by_count_and_first_division .empty [] code).2.2 2 hzero
    exact ⟨hzero, hstarved, hbefore 3 hstarved, hrun⟩

end Machine
end Reckon
