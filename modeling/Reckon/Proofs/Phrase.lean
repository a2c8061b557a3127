import Mathlib.Logic.Relation
import Reckon.Code
import Reckon.Statement

/-! The grammar of statements as derivation trees. Sums are made of products, products of
operands, and an operator stands between a phrase of its own rank and one of the next, so that
equal operators group from the left. A list of tokens has one derivation at most. -/

set_option autoImplicit false

namespace Reckon

inductive Rank where
  | primary
  | unary
  | product
  | sum
  deriving DecidableEq, Repr

inductive Phrase : Rank → Type where
  | number (x : Binary64) : Phrase .primary
  | complex (z : Complex) : Phrase .primary
  | name (text : String) : Phrase .primary
  | group (e : Phrase .sum) : Phrase .primary
  | root (e : Phrase .sum) : Phrase .primary
  | ofPrimary (e : Phrase .primary) : Phrase .unary
  | negate (e : Phrase .unary) : Phrase .unary
  | ofUnary (e : Phrase .unary) : Phrase .product
  | product (left : Phrase .product) (op : Operator) (h : op = .times ∨ op = .divide)
      (right : Phrase .unary) : Phrase .product
  | ofProduct (e : Phrase .product) : Phrase .sum
  | sum (left : Phrase .sum) (op : Operator) (h : op = .plus ∨ op = .minus)
      (right : Phrase .product) : Phrase .sum

namespace Phrase

def tokens : {r : Rank} → Phrase r → List Token
  | _, number x => [.number x]
  | _, complex z => [.complex z]
  | _, name text => [.name text]
  | _, group e => .leftParen :: e.tokens ++ [.rightParen]
  | _, root e => .sqrt :: .leftParen :: e.tokens ++ [.rightParen]
  | _, ofPrimary e => e.tokens
  | _, negate e => .operator .minus :: e.tokens
  | _, ofUnary e => e.tokens
  | _, product left op _ right => left.tokens ++ .operator op :: right.tokens
  | _, ofProduct e => e.tokens
  | _, sum left op _ right => left.tokens ++ .operator op :: right.tokens

/-- The expression that a derivation stands for, its parentheses gone. -/
def expr : {r : Rank} → Phrase r → Expr
  | _, number x => .real x
  | _, complex z => .complex z
  | _, name text => .load text
  | _, group e => e.expr
  | _, root e => .root e.expr
  | _, ofPrimary e => e.expr
  | _, negate e => .negate e.expr
  | _, ofUnary e => e.expr
  | _, product left op _ right => .binary op left.expr right.expr
  | _, ofProduct e => e.expr
  | _, sum left op _ right => .binary op left.expr right.expr

theorem head_primary_ne_minus (p : Phrase .primary) (u v : List Token) :
    p.tokens ++ u ≠ .operator .minus :: v := by
  cases p <;> simp [tokens]

/-- `q` is `p` with one more operator of its rank and the right operand. -/
inductive Grows : {r : Rank} → Phrase r → Phrase r → Prop
  | product (p : Phrase .product) (op : Operator) (h : op = .times ∨ op = .divide)
      (right : Phrase .unary) : Grows p (.product p op h right)
  | sum (p : Phrase .sum) (op : Operator) (h : op = .plus ∨ op = .minus)
      (right : Phrase .product) : Grows p (.sum p op h right)

def Extends {r : Rank} : Phrase r → Phrase r → Prop := Relation.ReflTransGen Grows

/-- The tokens do not go on with an operator that joins phrases of the rank. -/
def Ends (r : Rank) (ts : List Token) : Prop :=
  ∀ (op : Operator) (rest : List Token), ts = .operator op :: rest → match r with
    | .primary | .unary => True
    | .product => op = .plus ∨ op = .minus
    | .sum => False

theorem ends_operator {op : Operator} (h : op = .plus ∨ op = .minus) (ts : List Token) :
    Ends .product (.operator op :: ts) := by
  intro op' rest hts
  cases hts
  exact h

theorem ends_rightParen (r : Rank) (ts : List Token) : Ends r (.rightParen :: ts) := by
  intro op rest h
  cases h

theorem tokens_of_extends {r : Rank} {p q : Phrase r} (h : Extends p q) :
    ∃ more, q.tokens = p.tokens ++ more := by
  induction h with
  | refl => exact ⟨[], by simp⟩
  | tail _ hstep ih =>
    obtain ⟨more, ih⟩ := ih
    cases hstep <;> simp [tokens, ih]

theorem eq_of_extends {r : Rank} {p q : Phrase r} {u v : List Token} (h : Extends p q)
    (ht : p.tokens ++ u = q.tokens ++ v) (hu : Ends r u) : p = q := by
  rcases h.cases_head with heq | ⟨p', hstep, h'⟩
  · exact heq
  · obtain ⟨more, hm⟩ := tokens_of_extends h'
    cases hstep with
    | product _ op ho right =>
      simp [hm, tokens] at ht
      rcases hu op _ ht with h | h <;> simp [h] at ho
    | sum _ op ho right =>
      simp [hm, tokens] at ht
      exact (hu op _ ht).elim

theorem ends_primary (ts : List Token) : Ends .primary ts := fun _ _ _ => trivial

theorem ends_unary (ts : List Token) : Ends .unary ts := fun _ _ _ => trivial

theorem exists_first_factor : (q : Phrase .product) → ∃ e, Extends (ofUnary e) q
  | ofUnary e => ⟨e, .refl⟩
  | product left op h right => by
    obtain ⟨e, he⟩ := exists_first_factor left
    exact ⟨e, he.tail (.product left op h right)⟩

theorem exists_first_summand : (q : Phrase .sum) → ∃ e, Extends (ofProduct e) q
  | ofProduct e => ⟨e, .refl⟩
  | sum left op h right => by
    obtain ⟨e, he⟩ := exists_first_summand left
    exact ⟨e, he.tail (.sum left op h right)⟩

theorem ends_of_extends {p q : Phrase .sum} {v : List Token} (h : Extends p q)
    (hv : Ends .product v) :
    ∃ more, q.tokens = p.tokens ++ more ∧ Ends .product (more ++ v) := by
  rcases h.cases_head with heq | ⟨p', hstep, h'⟩
  · exact ⟨[], by simp [heq], by simpa using hv⟩
  · obtain ⟨more, hm⟩ := tokens_of_extends h'
    cases hstep with
    | sum _ op ho right =>
      refine ⟨.operator op :: right.tokens ++ more, by simp [hm, tokens], ?_⟩
      exact ends_operator ho _

theorem eq_of_comparable {r : Rank} {p q : Phrase r} {u v : List Token}
    (h : Extends p q ∨ Extends q p) (ht : p.tokens ++ u = q.tokens ++ v) (hu : Ends r u)
    (hv : Ends r v) : p = q := by
  cases h with
  | inl h => exact eq_of_extends h ht hu
  | inr h => exact (eq_of_extends h ht.symm hv).symm

/-- Of two phrases at the head of one list, each followed by no tighter operator, one extends
the other. -/
theorem extends_or_extends {r : Rank} (p q : Phrase r) {u v : List Token}
    (h : p.tokens ++ u = q.tokens ++ v) (hu : r = .sum → Ends .product u)
    (hv : r = .sum → Ends .product v) : Extends p q ∨ Extends q p := by
  induction p generalizing u v with
  | number x => cases q <;> simp [tokens] at h; exact .inl (h.1 ▸ .refl)
  | complex z => cases q <;> simp [tokens] at h; exact .inl (h.1 ▸ .refl)
  | name text => cases q <;> simp [tokens] at h; exact .inl (h.1 ▸ .refl)
  | group e ih =>
    cases q <;> simp [tokens] at h
    rename_i e'
    have hc := ih e' h (fun _ => ends_rightParen _ _) (fun _ => ends_rightParen _ _)
    exact .inl (eq_of_comparable hc h (ends_rightParen _ _) (ends_rightParen _ _) ▸ .refl)
  | root e ih =>
    cases q <;> simp [tokens] at h
    rename_i e'
    have hc := ih e' h (fun _ => ends_rightParen _ _) (fun _ => ends_rightParen _ _)
    exact .inl (eq_of_comparable hc h (ends_rightParen _ _) (ends_rightParen _ _) ▸ .refl)
  | ofPrimary e ih =>
    cases q with
    | ofPrimary e' =>
      have hc := ih e' h (by simp) (by simp)
      exact .inl (eq_of_comparable hc h (ends_primary u) (ends_primary v) ▸ .refl)
    | negate e' => exact (head_primary_ne_minus e u _ h).elim
  | negate e ih =>
    cases q with
    | ofPrimary e' => exact (head_primary_ne_minus e' v _ h.symm).elim
    | negate e' =>
      simp [tokens] at h
      have hc := ih e' h (by simp) (by simp)
      exact .inl (eq_of_comparable hc h (ends_unary u) (ends_unary v) ▸ .refl)
  | ofUnary e ih =>
    obtain ⟨e', hx⟩ := exists_first_factor q
    obtain ⟨more, hm⟩ := tokens_of_extends hx
    rw [hm, List.append_assoc] at h
    have hc := ih e' h (by simp) (by simp)
    exact .inl (eq_of_comparable hc h (ends_unary _) (ends_unary _) ▸ hx)
  | product left op ho right ihl ihr =>
    simp only [tokens, List.append_assoc, List.cons_append] at h
    cases ihl q h (by simp) (by simp) with
    | inl hx =>
      rcases hx.cases_head with heq | ⟨p', hstep, hx'⟩
      · exact .inr (heq ▸ .single (.product left op ho right))
      · obtain ⟨more, hm⟩ := tokens_of_extends hx'
        cases hstep with
        | product _ op' ho' right' =>
          simp [hm, tokens] at h
          obtain ⟨rfl, h⟩ := h
          have hc := ihr right' h (by simp) (by simp)
          exact .inl (eq_of_comparable hc h (ends_unary _) (ends_unary _) ▸ hx')
    | inr hx => exact .inr (hx.tail (.product left op ho right))
  | ofProduct e ih =>
    obtain ⟨e', hx⟩ := exists_first_summand q
    obtain ⟨more, hm, hends⟩ := ends_of_extends hx (hv rfl)
    rw [hm, List.append_assoc] at h
    have hc := ih e' h (by simp) (by simp)
    exact .inl (eq_of_comparable hc h (hu rfl) hends ▸ hx)
  | sum left op ho right ihl ihr =>
    simp only [tokens, List.append_assoc, List.cons_append] at h
    cases ihl q h (fun _ => ends_operator ho _) hv with
    | inl hx =>
      rcases hx.cases_head with heq | ⟨p', hstep, hx'⟩
      · exact .inr (heq ▸ .single (.sum left op ho right))
      · obtain ⟨more, hm, hends⟩ := ends_of_extends hx' (hv rfl)
        cases hstep with
        | sum _ op' ho' right' =>
          simp [hm, tokens] at h
          obtain ⟨rfl, h⟩ := h
          have hc := ihr right' h (by simp) (by simp)
          exact .inl (eq_of_comparable hc h (hu rfl) hends ▸ hx')
    | inr hx => exact .inr (hx.tail (.sum left op ho right))

theorem tokens_injective {p q : Phrase .sum} (h : p.tokens = q.tokens) : p = q := by
  have hn : ∀ r, Ends r [] := fun r op rest h => by cases h
  have ht : p.tokens ++ [] = q.tokens ++ [] := by simp [h]
  exact eq_of_comparable (extends_or_extends p q ht (fun _ => hn _) (fun _ => hn _)) ht
    (hn _) (hn _)

end Phrase

inductive Sentence where
  | assign (name : String) (e : Phrase .sum)
  | print (e : Phrase .sum)

namespace Sentence

def tokens : Sentence → List Token
  | assign name e => .name name :: .assign :: e.tokens
  | print e => .print :: .leftParen :: e.tokens ++ [.rightParen]

def expr : Sentence → Expr
  | assign _ e | print e => e.expr

def statement : Sentence → Statement
  | assign name e => .assign name e.expr.code
  | print e => .print e.expr.code

theorem code_statement (d : Sentence) : d.statement.code = d.expr.code := by cases d <;> rfl

theorem tokens_injective {d d' : Sentence} (h : d.tokens = d'.tokens) : d = d' := by
  cases d <;> cases d' <;> simp [tokens] at h
  · rw [h.1, Phrase.tokens_injective h.2]
  · rw [Phrase.tokens_injective h]

end Sentence
end Reckon
