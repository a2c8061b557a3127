import Reckon.Proofs.Phrase

/-! The readers of expressions as plain functions on cursors: their equations, and what they do
on the tokens of a phrase. -/

set_option autoImplicit false

namespace Reckon

abbrev Reader := Cursor → Except Stop Cursor

def Cursor.ofCode (input : List Spanned) (code : Code) : Cursor := ⟨input, code.toArray⟩

namespace Cursor

@[simp] theorem emit_ofCode (ts : List Spanned) (code : Code) (i : Instr) :
    (ofCode ts code).emit i = ofCode ts (code ++ [i]) := by simp [ofCode, emit]

theorem ofCode_input_code (c : Cursor) : ofCode c.input c.code.toList = c := rfl

end Cursor

theorem exists_of_map_eq_ok {ε α β : Type} {f : α → β} {r : Except ε α} {b : β}
    (h : r.map f = .ok b) : ∃ a, r = .ok a ∧ f a = b := by
  cases r with
  | error e => cases h
  | ok a => exact ⟨a, rfl, Except.ok.inj h⟩

/-- The levels at which a phrase of the rank is read as a whole. -/
def Rank.Admits : Rank → Nat → Prop
  | .primary, _ | .unary, _ => True
  | .product, min => min ≤ 2
  | .sum, min => min ≤ 1

def Stops (min : Nat) : List Spanned → Prop
  | [] => True
  | t :: _ => ∀ op, t.token = .operator op → op.precedence < min

theorem stops_of_le {min k : Nat} {ts : List Spanned} (h : Stops min ts) (hk : min ≤ k) :
    Stops k ts := by
  cases ts with
  | nil => trivial
  | cons t rest => exact fun op ht => Nat.lt_of_lt_of_le (h op ht) hk

theorem precedence_lt_three (op : Operator) : op.precedence < 3 := by cases op <;> decide

@[simp] theorem rightMin_level (op : Operator) : op.level.rightMin = op.precedence + 1 := by
  cases op <;> rfl

theorem stops_three (ts : List Spanned) : Stops 3 ts := by
  cases ts with
  | nil => trivial
  | cons t rest => exact fun op _ => precedence_lt_three op

theorem stops_congr {min : Nat} {ts us : List Spanned} (h : us.head? = ts.head?)
    (ht : Stops min ts) : Stops min us := by
  cases ts with
  | nil =>
    cases us with
    | nil => trivial
    | cons u us => simp at h
  | cons t ts =>
    cases us with
    | nil => trivial
    | cons u us =>
      simp at h
      exact h ▸ ht

theorem stops_of_token {min : Nat} {t : Spanned} {ts : List Spanned}
    (h : t.token.operator? = none) : Stops min (t :: ts) := by
  intro op ht
  simp [ht, Token.operator?] at h

namespace Reader

def skip (kind : Kind) : Reader := fun c => (c.skip kind).map Subtype.val

def climb (min : Nat) : Reader := fun c => (Reckon.climb min c).map Subtype.val

def operators (min : Nat) : Reader := fun c => (Reckon.operators min c).map Subtype.val

def operand : Reader := fun c => (Reckon.operand c).map Subtype.val

def emit (i : Instr) : Reader := fun c => .ok (c.emit i)

def andThen (f g : Reader) : Reader := fun c => (f c).bind g

theorem andThen_of_ok {f : Reader} {c d : Cursor} (h : f c = .ok d) (g : Reader) :
    andThen f g c = g d := by simp [andThen, h, Except.bind]

theorem andThen_of_error {f : Reader} {c : Cursor} {s : Stop} (h : f c = .error s) (g : Reader) :
    andThen f g c = .error s := by simp [andThen, h, Except.bind]

theorem skip_nil (kind : Kind) (code : Code) :
    skip kind (.ofCode [] code) = .error ⟨.endOfInput, .ofCode [] code⟩ := rfl

theorem skip_cons (kind : Kind) (t : Spanned) (ts : List Spanned) (code : Code) :
    skip kind (.ofCode (t :: ts) code) =
      if t.token.kind = kind then .ok (.ofCode ts code)
      else .error ⟨.ofSpanned t, .ofCode ts code⟩ := by
  unfold skip Cursor.skip
  split <;> rename_i h <;> simp only [Cursor.ofCode, expect, Prod.mk.injEq] at h <;>
    obtain ⟨ht, rfl⟩ := h <;> split at ht <;> simp_all [Except.map, Cursor.ofCode]

theorem climb_eq (min : Nat) : climb min = andThen operand (operators min) := by
  funext c
  unfold climb andThen operand operators
  rw [Reckon.climb]
  cases Reckon.operand c with
  | error s => rfl
  | ok d =>
    obtain ⟨d, hd⟩ := d
    simp only [Except.map, Except.bind]
    cases Reckon.operators min d <;> rfl

theorem operators_of_stops {min : Nat} {ts : List Spanned} (h : Stops min ts) (code : Code) :
    operators min (.ofCode ts code) = .ok (.ofCode ts code) := by
  cases ts with
  | nil => simp [operators, Cursor.ofCode, Reckon.operators, Except.map]
  | cons t ts =>
    unfold operators Cursor.ofCode
    rw [Reckon.operators]
    split
    · rfl
    · rename_i op hop
      have ht : t.token = .operator op := by
        cases ht : t.token <;> simp_all [Token.operator?]
      have hlt : ¬ min ≤ op.precedence := Nat.not_le.2 (h op ht)
      simp [hlt, Except.map]

theorem operators_of_le {min : Nat} {t : Spanned} {op : Operator} (ht : t.token = .operator op)
    (h : min ≤ op.precedence) (ts : List Spanned) (code : Code) :
    operators min (.ofCode (t :: ts) code) =
      andThen (climb (op.precedence + 1)) (andThen (emit (.binary op)) (operators min))
        (.ofCode ts code) := by
  unfold operators climb andThen emit Cursor.ofCode
  rw [Reckon.operators]
  simp only [ht, Token.operator?, h, ↓reduceIte, rightMin_level]
  cases Reckon.climb (op.precedence + 1) ⟨ts, code.toArray⟩ with
  | error s => rfl
  | ok d =>
    obtain ⟨d, hd⟩ := d
    simp only [Except.map, Except.bind]
    cases Reckon.operators min (d.emit (.binary op)) <;> rfl

theorem operand_nil (code : Code) :
    operand (.ofCode [] code) = .error ⟨.endOfInput, .ofCode [] code⟩ := by
  simp [operand, Cursor.ofCode, Reckon.operand, Except.map]

theorem operand_cons (t : Spanned) (ts : List Spanned) (code : Code) :
    operand (.ofCode (t :: ts) code) = match t.token with
      | .operator .minus => andThen (climb 3) (emit .negate) (.ofCode ts code)
      | .number x => .ok (.ofCode ts (code ++ [.real x]))
      | .complex z => .ok (.ofCode ts (code ++ [.complex z]))
      | .name text => .ok (.ofCode ts (code ++ [.load text]))
      | .leftParen => andThen (climb 1) (skip .rightParen) (.ofCode ts code)
      | .sqrt =>
        andThen (skip .leftParen) (andThen (climb 1) (andThen (skip .rightParen) (emit .root)))
          (.ofCode ts code)
      | _ => .error ⟨.ofSpanned t, .ofCode ts code⟩ := by
  unfold operand climb andThen emit skip Cursor.ofCode
  rw [Reckon.operand]
  cases ht : t.token with
  | number x => simp [Except.map]
  | complex z => simp [Except.map]
  | name text => simp [Except.map]
  | operator op =>
    cases op with
    | minus =>
      simp only [show Level.unaryMinus.precedence = 3 from rfl]
      cases Reckon.climb 3 ⟨ts, code.toArray⟩ <;> rfl
    | _ => rfl
  | leftParen =>
    simp only [show Level.additive.precedence = 1 from rfl]
    cases Reckon.climb 1 ⟨ts, code.toArray⟩ with
    | error s => rfl
    | ok d =>
      simp only [Except.map, Except.bind]
      cases d.val.skip .rightParen <;> rfl
  | sqrt =>
    simp only [show Level.additive.precedence = 1 from rfl]
    cases Cursor.skip .leftParen ⟨ts, code.toArray⟩ with
    | error s => rfl
    | ok b =>
      simp only [Except.map, Except.bind]
      cases Reckon.climb 1 b.val with
      | error s => rfl
      | ok d =>
        simp only
        cases d.val.skip .rightParen <;> rfl
  | _ => rfl

theorem climb_of_operand {ts rest : List Spanned} {code out : Code}
    (h : operand (.ofCode ts code) = .ok (.ofCode rest out)) (min : Nat) :
    climb min (.ofCode ts code) = operators min (.ofCode rest out) := by
  rw [climb_eq, andThen_of_ok h]

theorem climb_of_stops {ts rest : List Spanned} {code out : Code} {min : Nat}
    (h : climb min (.ofCode ts code) = operators min (.ofCode rest out)) (hs : Stops min rest) :
    climb min (.ofCode ts code) = .ok (.ofCode rest out) := h.trans (operators_of_stops hs out)

/-- Climbing reads a phrase in one go and looks for operators after it, as long as no operator
there binds more tightly than those of the phrase. -/
theorem climb_tokens {r : Rank} (p : Phrase r) {pre tail : List Spanned} (min : Nat)
    (hp : pre.map Spanned.token = p.tokens) (hmin : r.Admits min)
    (htail : r = .sum → Stops 2 tail) (code : Code) :
    climb min (.ofCode (pre ++ tail) code) =
      operators min (.ofCode tail (code ++ p.expr.code)) := by
  induction p generalizing pre tail min code with
  | number x =>
    obtain ⟨t, rfl, ht⟩ := List.map_eq_singleton_iff.1 hp
    exact climb_of_operand (by simp [operand_cons, ht, Phrase.expr, Expr.code]) min
  | complex z =>
    obtain ⟨t, rfl, ht⟩ := List.map_eq_singleton_iff.1 hp
    exact climb_of_operand (by simp [operand_cons, ht, Phrase.expr, Expr.code]) min
  | name text =>
    obtain ⟨t, rfl, ht⟩ := List.map_eq_singleton_iff.1 hp
    exact climb_of_operand (by simp [operand_cons, ht, Phrase.expr, Expr.code]) min
  | group e ih =>
    obtain ⟨t, pre, rfl, ht, hp⟩ := List.map_eq_cons_iff.1 hp
    obtain ⟨pre, last, rfl, he, hl⟩ := List.map_eq_append_iff.1 hp
    obtain ⟨u, rfl, hu⟩ := List.map_eq_singleton_iff.1 hl
    have hstop : ∀ k, Stops k (u :: tail) := fun k => stops_of_token (by simp [hu, Token.operator?])
    have hin := climb_of_stops (ih 1 he (Nat.le_refl 1) (fun _ => hstop 2) code) (hstop 1)
    refine climb_of_operand ?_ min
    simp [operand_cons, ht, andThen_of_ok hin, skip_cons, hu, Token.kind, Phrase.expr]
  | root e ih =>
    obtain ⟨t, pre, rfl, ht, hp⟩ := List.map_eq_cons_iff.1 hp
    obtain ⟨o, pre, rfl, ho, hp⟩ := List.map_eq_cons_iff.1 hp
    obtain ⟨pre, last, rfl, he, hl⟩ := List.map_eq_append_iff.1 hp
    obtain ⟨u, rfl, hu⟩ := List.map_eq_singleton_iff.1 hl
    have hstop : ∀ k, Stops k (u :: tail) := fun k => stops_of_token (by simp [hu, Token.operator?])
    have hin := climb_of_stops (ih 1 he (Nat.le_refl 1) (fun _ => hstop 2) code) (hstop 1)
    have hopen : skip .leftParen (.ofCode (o :: (pre ++ u :: tail)) code) =
        .ok (.ofCode (pre ++ u :: tail) code) := by simp [skip_cons, ho, Token.kind]
    have hclose : skip .rightParen (.ofCode (u :: tail) (code ++ e.expr.code)) =
        .ok (.ofCode tail (code ++ e.expr.code)) := by simp [skip_cons, hu, Token.kind]
    refine climb_of_operand ?_ min
    simp [operand_cons, ht, andThen_of_ok hopen, andThen_of_ok hin, andThen_of_ok hclose, emit,
      Phrase.expr, Expr.code]
  | ofPrimary e ih => exact ih min hp trivial (by simp) code
  | negate e ih =>
    obtain ⟨t, pre, rfl, ht, hp⟩ := List.map_eq_cons_iff.1 hp
    have hin := climb_of_stops (ih 3 hp trivial (by simp) code) (stops_three tail)
    refine climb_of_operand ?_ min
    simp [operand_cons, ht, andThen_of_ok hin, emit, Phrase.expr, Expr.code]
  | ofUnary e ih => exact ih min hp trivial (by simp) code
  | product left op ho right ihl ihr =>
    obtain ⟨pre, more, rfl, hl, hr⟩ := List.map_eq_append_iff.1 hp
    obtain ⟨t, more, rfl, ht, hr⟩ := List.map_eq_cons_iff.1 hr
    have hop : op.precedence = 2 := by rcases ho with rfl | rfl <;> rfl
    have hright := climb_of_stops (ihr 3 hr trivial (by simp) (code ++ left.expr.code))
      (stops_three tail)
    rw [List.append_assoc, ihl min hl hmin (by simp), List.cons_append,
      operators_of_le ht (hop ▸ hmin), hop, andThen_of_ok hright]
    simp [andThen, emit, Except.bind, Phrase.expr, Expr.code]
  | ofProduct e ih =>
    exact ih min hp (Nat.le_succ_of_le hmin) (by simp) code
  | sum left op ho right ihl ihr =>
    obtain ⟨pre, more, rfl, hl, hr⟩ := List.map_eq_append_iff.1 hp
    obtain ⟨t, more, rfl, ht, hr⟩ := List.map_eq_cons_iff.1 hr
    have hop : op.precedence = 1 := by rcases ho with rfl | rfl <;> rfl
    have hleft : Stops 2 (t :: (more ++ tail)) := by
      intro op' ht'
      rw [ht] at ht'
      cases ht'
      omega
    have hright := climb_of_stops (ihr 2 hr (Nat.le_refl 2) (by simp)
      (code ++ left.expr.code)) (htail rfl)
    rw [List.append_assoc, List.cons_append, ihl min hl hmin (fun _ => hleft),
      operators_of_le ht (hop ▸ hmin), hop, andThen_of_ok hright]
    simp [andThen, emit, Except.bind, Phrase.expr, Expr.code]

theorem climb_sum (e : Phrase .sum) {pre tail : List Spanned} {u : Spanned}
    (hp : pre.map Spanned.token = e.tokens) (hu : u.token.operator? = none) (code : Code) :
    climb 1 (.ofCode (pre ++ u :: tail) code) =
      .ok (.ofCode (u :: tail) (code ++ e.expr.code)) :=
  climb_of_stops (climb_tokens e 1 hp (Nat.le_refl 1) (fun _ => stops_of_token hu) code)
    (stops_of_token hu)

end Reader
end Reckon
