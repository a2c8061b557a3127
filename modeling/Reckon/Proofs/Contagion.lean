import Reckon.Proofs.Evaluation

/-! Real and complex. One complex leaf makes the value of an expression complex, however deep it
stands and whatever is done to it on the way, and without a root nothing else does. -/

set_option autoImplicit false

namespace Reckon
namespace Value

@[simp] theorem isComplex_neg (v : Value) : v.neg.isComplex = v.isComplex := by cases v <;> rfl

theorem isComplex_sqrt {v : Value} (h : v.isComplex = true) : v.sqrt.isComplex = true := by
  cases v with
  | real x => cases h
  | complex z => rfl

theorem isComplex_apply {op : Operator} {v w u : Value} (h : apply op v w = .ok u) :
    u.isComplex = (v.isComplex || w.isComplex) := by
  cases v with
  | real x =>
    cases w with
    | real y =>
      obtain ⟨r, -, rfl⟩ := exists_of_map_eq_ok h
      rfl
    | complex z =>
      obtain ⟨r, -, rfl⟩ := exists_of_map_eq_ok h
      rfl
  | complex z =>
    obtain ⟨r, -, rfl⟩ := exists_of_map_eq_ok h
    rfl

end Value

def Instr.bringsComplex (store : Store) : Instr → Bool
  | complex _ => true
  | load name => (store.get? name).any Value.isComplex
  | _ => false

theorem Instr.bringsComplex_load (store : Store) (name : String) :
    bringsComplex store (.load name) = (Machine.load store name).1.isComplex := by
  rw [bringsComplex, Machine.load]
  cases store.get? name <;> rfl

namespace Expr

theorem eval_load (store : Store) (name : String) :
    ((load name).eval store).1 = .ok (Machine.load store name).1 := by
  rw [eval, Machine.load]
  cases store.get? name <;> rfl

theorem operands_of_eval_binary {store : Store} {op : Operator} {left right : Expr} {u : Value}
    (h : ((binary op left right).eval store).1 = .ok u) :
    ∃ v w, (left.eval store).1 = .ok v ∧ (right.eval store).1 = .ok w ∧
      Value.apply op v w = .ok u := by
  rcases hl : left.eval store with ⟨err | v, notes⟩
  · simp only [eval, hl] at h
    cases h
  · rcases hr : right.eval store with ⟨err | w, more⟩
    · simp only [eval, hl, hr] at h
      cases h
    · simp only [eval, hl, hr] at h
      exact ⟨v, w, rfl, rfl, h⟩

theorem isComplex_of_leaf {e : Expr} {store : Store} {v : Value} (h : (e.eval store).1 = .ok v)
    (hleaf : e.code.any (Instr.bringsComplex store) = true) : v.isComplex = true := by
  induction e generalizing v with
  | real x => cases hleaf
  | complex z =>
    cases h
    rfl
  | load name =>
    rw [eval_load] at h
    cases h
    simpa [code, Instr.bringsComplex_load] using hleaf
  | negate e ih =>
    obtain ⟨u, hu, rfl⟩ := exists_of_map_eq_ok h
    rw [Value.isComplex_neg]
    exact ih hu (by simpa [code, Instr.bringsComplex] using hleaf)
  | root e ih =>
    obtain ⟨u, hu, rfl⟩ := exists_of_map_eq_ok h
    exact Value.isComplex_sqrt (ih hu (by simpa [code, Instr.bringsComplex] using hleaf))
  | binary op left right ihl ihr =>
    obtain ⟨u, w, hu, hw, happly⟩ := operands_of_eval_binary h
    have hside : left.code.any (Instr.bringsComplex store) = true ∨
        right.code.any (Instr.bringsComplex store) = true := by
      simpa [code, Instr.bringsComplex] using hleaf
    rw [Value.isComplex_apply happly, Bool.or_eq_true]
    exact hside.imp (ihl hu) (ihr hw)

/-- Without a root nothing but a complex leaf makes the value complex. -/
theorem leaf_of_isComplex {e : Expr} {store : Store} {v : Value} (h : (e.eval store).1 = .ok v)
    (hroot : .root ∉ e.code) (hv : v.isComplex = true) :
    e.code.any (Instr.bringsComplex store) = true := by
  induction e generalizing v with
  | real x =>
    cases h
    cases hv
  | complex z => rfl
  | load name =>
    rw [eval_load] at h
    cases h
    simpa [code, Instr.bringsComplex_load] using hv
  | negate e ih =>
    obtain ⟨u, hu, rfl⟩ := exists_of_map_eq_ok h
    rw [Value.isComplex_neg] at hv
    rw [code, List.any_append, ih hu (fun hmem => hroot (List.mem_append_left _ hmem)) hv]
    rfl
  | root e ih => exact (hroot (List.mem_append_right _ (List.mem_singleton.2 rfl))).elim
  | binary op left right ihl ihr =>
    obtain ⟨u, w, hu, hw, happly⟩ := operands_of_eval_binary h
    simp only [code, List.mem_append, not_or] at hroot
    rw [Value.isComplex_apply happly, Bool.or_eq_true] at hv
    rw [code, List.any_append, List.any_append, Bool.or_eq_true, Bool.or_eq_true]
    exact .inl (hv.imp (ihl hu hroot.1.1) (ihr hw hroot.1.2))

end Expr

/-- Which leaves decide whether a value of the code is real or complex. -/
structure Code.Contagious (code : Code) : Prop where
  complex : ∀ (store : Store) (log : List Diagnostic) (v : Value),
    (Machine.run store log code).1 = .ok v → (∃ i ∈ code, i.bringsComplex store = true) →
    ∃ z, v = .complex z
  real : ∀ (store : Store) (log : List Diagnostic) (v : Value),
    (Machine.run store log code).1 = .ok v → (∀ i ∈ code, i.bringsComplex store = false) →
    .root ∉ code → ∃ x, v = .real x
  leaves_real : ∀ (store : Store) (log : List Diagnostic) (x : Binary64),
    (Machine.run store log code).1 = .ok (.real x) →
    (∀ z, .complex z ∉ code) ∧
      ∀ name, .load name ∈ code → ∃ y, (Machine.load store name).1 = .real y

theorem Expr.contagious_code (e : Expr) : Code.Contagious e.code where
  complex store log v h hleaf := by
    rw [run_code] at h
    obtain ⟨i, hi, hleaf⟩ := hleaf
    have hv := isComplex_of_leaf h (List.any_eq_true.2 ⟨i, hi, hleaf⟩)
    cases v with
    | real x => cases hv
    | complex z => exact ⟨z, rfl⟩
  real store log v h hleaf hroot := by
    rw [run_code] at h
    cases v with
    | real x => exact ⟨x, rfl⟩
    | complex z =>
      obtain ⟨i, hi, hcomplex⟩ := List.any_eq_true.1 (leaf_of_isComplex h hroot rfl)
      rw [hleaf i hi] at hcomplex
      cases hcomplex
  leaves_real store log x h := by
    rw [run_code] at h
    have hnone : ∀ i ∈ e.code, ¬ i.bringsComplex store = true := by
      intro i hi hcomplex
      cases isComplex_of_leaf h (List.any_eq_true.2 ⟨i, hi, hcomplex⟩)
    refine ⟨fun z hz => hnone _ hz rfl, fun name hname => ?_⟩
    have hload := hnone _ hname
    rw [Instr.bringsComplex_load] at hload
    cases hvalue : (Machine.load store name).1 with
    | real y => exact ⟨y, rfl⟩
    | complex z => exact (hload (by rw [hvalue]; rfl)).elim

/-- In whatever is compiled, at any level or as a statement, a complex literal or a name with a
complex value makes the result complex. Without these and without a root it is real, and so a real
result had none but real leaves. -/
theorem contagious_climb_and_read :
    (∀ (min : Nat) (ts : List Spanned) (d : Cursor.Before ⟨ts, #[]⟩),
      climb min ⟨ts, #[]⟩ = .ok d → Code.Contagious d.val.code.toList) ∧
    (∀ (ts rest : List Spanned) (s : Statement),
      Statement.read ts = (.ok s, rest) → Code.Contagious s.code) ∧
    ∀ (line : List Char) (s : Statement),
      Statement.ofLine line = .ok s → Code.Contagious s.code := by
  have hread : ∀ (ts rest : List Spanned) (s : Statement),
      Statement.read ts = (.ok s, rest) → Code.Contagious s.code := by
    intro ts rest s h
    obtain ⟨words, mark, d, -, -, -, rfl⟩ := Statement.exists_sentence_of_read h
    rw [d.code_statement]
    exact d.expr.contagious_code
  refine ⟨fun min ts d h => ?_, hread, fun line s h => hread _ _ s (Prod.ext h rfl)⟩
  obtain ⟨e, he⟩ := exists_expr_of_climb h
  rw [he]
  exact e.contagious_code

theorem complex_after_vanishing_product :
    (∃ d : Cursor.Before ⟨[⟨.operator .minus, 0, 1⟩, ⟨.name "x", 1, 2⟩, ⟨.operator .times, 2, 3⟩,
        ⟨.name "y", 3, 4⟩, ⟨.operator .plus, 4, 5⟩], #[]⟩,
      climb 2 _ = .ok d ∧ Code.Contagious d.val.code.toList) ∧
    (Statement.read [⟨.print, 0, 1⟩, ⟨.leftParen, 1, 2⟩, ⟨.name "x", 2, 3⟩, ⟨.rightParen, 3, 4⟩,
        ⟨.endOfInput, 4, 5⟩] = (.ok (.print [.load "x"]), []) ∧
      ∃ v, (Machine.run .empty [] [.load "x"]).1 = .ok v ∧ ∃ x, v = .real x) ∧
    Statement.ofLine "print(0 * (x - 3+0j))".toList = .ok (.print
        [.real 0, .load "x", .complex ⟨3, 0⟩, .binary .minus, .binary .times]) ∧
      ∃ v, (Machine.run (Store.empty.set "x" (.real 3)) []
        [.real 0, .load "x", .complex ⟨3, 0⟩, .binary .minus, .binary .times]).1 = .ok v ∧
          ∃ z, v = .complex z := by
  refine ⟨?_, ?_, ?_⟩
  · have h : (climb 2 ⟨[⟨.operator .minus, 0, 1⟩, ⟨.name "x", 1, 2⟩, ⟨.operator .times, 2, 3⟩,
        ⟨.name "y", 3, 4⟩, ⟨.operator .plus, 4, 5⟩], #[]⟩).map (·.val.code.toList) =
        .ok [.load "x", .negate, .load "y", .binary .times] := by decide +kernel
    obtain ⟨d, hd, -⟩ := exists_of_map_eq_ok h
    exact ⟨d, hd, contagious_climb_and_read.1 2 _ d hd⟩
  · have h : Statement.read [⟨.print, 0, 1⟩, ⟨.leftParen, 1, 2⟩, ⟨.name "x", 2, 3⟩,
        ⟨.rightParen, 3, 4⟩, ⟨.endOfInput, 4, 5⟩] = (.ok (.print [.load "x"]), []) := by
      decide +kernel
    have hrun : (Machine.run .empty [] [.load "x"]).1 = .ok (.real 0) := rfl
    exact ⟨h, _, hrun, (contagious_climb_and_read.2.1 _ _ _ h).real _ _ _ hrun
      (by simp [Statement.code, Instr.bringsComplex]) (by simp [Statement.code])⟩
  · have h : Statement.ofLine "print(0 * (x - 3+0j))".toList = .ok (.print
        [.real 0, .load "x", .complex ⟨3, 0⟩, .binary .minus, .binary .times]) := by
      decide +kernel
    have hrun : (Machine.run (Store.empty.set "x" (.real 3)) []
        [.real 0, .load "x", .complex ⟨3, 0⟩, .binary .minus, .binary .times]).1 =
          .ok (.complex ⟨0, 0⟩) := by decide +kernel
    exact ⟨h, _, hrun, (contagious_climb_and_read.2.2 _ _ h).complex _ _ _ hrun
      ⟨.complex ⟨3, 0⟩, by simp [Statement.code], rfl⟩⟩

end Reckon
