import Mathlib.Computability.ContextFreeGrammar
import Reckon.Grammar
import Reckon.Proofs.Recognition

/-! The productions of the table as a context-free grammar over kinds of tokens. It has many
derivations for one list of kinds, for it knows nothing of precedence, but it derives no more
than the sentences that are read: two sums with any operator between them are a sum again, and
so is a sum behind a minus. -/

set_option autoImplicit false

namespace Reckon
namespace Phrase

theorem exists_product_of_products (left : Phrase .product) {op : Operator}
    (h : op = .times ∨ op = .divide) : (right : Phrase .product) →
    ∃ q : Phrase .product, q.tokens = left.tokens ++ .operator op :: right.tokens
  | ofUnary e => ⟨product left op h e, rfl⟩
  | product right op' h' e => by
    obtain ⟨q, hq⟩ := exists_product_of_products left h right
    exact ⟨product q op' h' e, by simp [tokens, hq]⟩

theorem exists_sum_of_factor (left : Phrase .sum) {op : Operator}
    (h : op = .times ∨ op = .divide) (right : Phrase .product) :
    ∃ q : Phrase .sum, q.tokens = left.tokens ++ .operator op :: right.tokens := by
  cases left with
  | ofProduct e =>
    obtain ⟨q, hq⟩ := exists_product_of_products e h right
    exact ⟨ofProduct q, hq⟩
  | sum left op' h' e =>
    obtain ⟨q, hq⟩ := exists_product_of_products e h right
    exact ⟨sum left op' h' q, by simp [tokens, hq]⟩

/-- Any operator between two sums makes a sum, whatever binds tighter. -/
theorem exists_sum_of_sums (left : Phrase .sum) (op : Operator) : (right : Phrase .sum) →
    ∃ q : Phrase .sum, q.tokens = left.tokens ++ .operator op :: right.tokens
  | ofProduct e => by
    cases op with
    | plus => exact ⟨sum left .plus (.inl rfl) e, rfl⟩
    | minus => exact ⟨sum left .minus (.inr rfl) e, rfl⟩
    | times => exact exists_sum_of_factor left (.inl rfl) e
    | divide => exact exists_sum_of_factor left (.inr rfl) e
  | sum right op' h' e => by
    obtain ⟨q, hq⟩ := exists_sum_of_sums left op right
    exact ⟨sum q op' h' e, by simp [tokens, hq]⟩

theorem exists_product_of_minus : (e : Phrase .product) →
    ∃ q : Phrase .product, q.tokens = .operator .minus :: e.tokens
  | ofUnary e => ⟨ofUnary (negate e), rfl⟩
  | product left op h e => by
    obtain ⟨q, hq⟩ := exists_product_of_minus left
    exact ⟨product q op h e, by simp [tokens, hq]⟩

theorem exists_sum_of_minus : (e : Phrase .sum) →
    ∃ q : Phrase .sum, q.tokens = .operator .minus :: e.tokens
  | ofProduct e => by
    obtain ⟨q, hq⟩ := exists_product_of_minus e
    exact ⟨ofProduct q, hq⟩
  | sum left op h e => by
    obtain ⟨q, hq⟩ := exists_sum_of_minus left
    exact ⟨sum q op h e, by simp [tokens, hq]⟩

end Phrase

def formSymbol : Grammar.Symbol → Symbol Kind Grammar.Nonterminal
  | .nonterminal n => .nonterminal n
  | .terminal k => .terminal k

def Grammar.Production.rule (p : Production) : ContextFreeRule Kind Nonterminal :=
  ⟨p.left, p.right.map formSymbol⟩

/-- The productions without their levels; a statement is what they derive. -/
abbrev Grammar.contextFree : ContextFreeGrammar Kind where
  NT := Nonterminal
  initial := .statement
  rules := (productions.map Production.rule).toFinset

abbrev Form := List (Symbol Kind Grammar.Nonterminal)

def Form.Derives (form : Form) (ts : List Token) : Prop :=
  Grammar.contextFree.Derives form (ts.map fun t => .terminal t.kind)

namespace Form

theorem derives_terminal (t : Token) : Derives [.terminal t.kind] [t] := .refl _

theorem Derives.append {a b : Form} {ts us : List Token} (ha : a.Derives ts) (hb : b.Derives us) :
    Form.Derives (a ++ b) (ts ++ us) := by
  have h := (ha.append_right b).trans (hb.append_left (ts.map fun t => .terminal t.kind))
  rwa [← List.map_append] at h

theorem derives_of_production (n : Grammar.Nonterminal) (right : List Grammar.Symbol)
    (hp : ∃ p ∈ Grammar.productions, p.left = n ∧ p.right = right) {ts : List Token}
    (h : Derives (right.map formSymbol) ts) : Derives [.nonterminal n] ts := by
  obtain ⟨p, hp, rfl, rfl⟩ := hp
  have hstep : Grammar.contextFree.Produces [.nonterminal p.left] (p.right.map formSymbol) :=
    ⟨p.rule, by simpa using ⟨p, hp, rfl⟩, ContextFreeRule.Rewrites.input_output⟩
  exact hstep.trans_derives h

theorem Derives.inParens {ts : List Token} (h : Derives [.nonterminal .expr] ts) :
    Derives [.terminal .leftParen, .nonterminal .expr, .terminal .rightParen]
      (.leftParen :: ts ++ [.rightParen]) :=
  ((derives_terminal .leftParen).append h).append (derives_terminal .rightParen)

theorem Derives.binary {ts us : List Token} (op : Operator) (ht : Derives [.nonterminal .expr] ts)
    (hu : Derives [.nonterminal .expr] us) :
    Derives [.nonterminal .expr] (ts ++ .operator op :: us) :=
  derives_of_production .expr (Grammar.Production.infixOf op).right
    (by cases op <;> decide) (ht.append ((derives_terminal (.operator op)).append hu))

end Form

theorem Phrase.derives_tokens {r : Rank} (e : Phrase r) :
    Form.Derives [.nonterminal .expr] e.tokens := by
  induction e with
  | number x =>
    exact Form.derives_of_production .expr [.terminal .number] (by decide)
      (Form.derives_terminal (.number x))
  | complex z =>
    exact Form.derives_of_production .expr [.terminal .complex] (by decide)
      (Form.derives_terminal (.complex z))
  | name text =>
    exact Form.derives_of_production .expr [.terminal .name] (by decide)
      (Form.derives_terminal (.name text))
  | group e ih =>
    exact Form.derives_of_production .expr
      [.terminal .leftParen, .nonterminal .expr, .terminal .rightParen] (by decide) ih.inParens
  | root e ih =>
    exact Form.derives_of_production .expr
      [.terminal .sqrt, .terminal .leftParen, .nonterminal .expr, .terminal .rightParen]
      (by decide) ((Form.derives_terminal .sqrt).append ih.inParens)
  | ofPrimary e ih => exact ih
  | negate e ih =>
    exact Form.derives_of_production .expr [.terminal (.operator .minus), .nonterminal .expr]
      (by decide) ((Form.derives_terminal (.operator .minus)).append ih)
  | ofUnary e ih => exact ih
  | product left op h right ihl ihr => exact ihl.binary op ihr
  | ofProduct e ih => exact ih
  | sum left op h right ihl ihr => exact ihl.binary op ihr

theorem Sentence.derives_tokens (d : Sentence) :
    Form.Derives [.nonterminal .statement] d.tokens := by
  cases d with
  | assign name e =>
    exact Form.derives_of_production .statement
      [.terminal .name, .terminal .assign, .nonterminal .expr] (by decide)
      ((Form.derives_terminal (.name name)).append
        ((Form.derives_terminal .assign).append e.derives_tokens))
  | print e =>
    exact Form.derives_of_production .statement
      [.terminal .print, .terminal .leftParen, .nonterminal .expr, .terminal .rightParen]
      (by decide) ((Form.derives_terminal .print).append e.derives_tokens.inParens)

/-- The tokens that a symbol stands for when precedence is heeded. -/
def Yields : Symbol Kind Grammar.Nonterminal → List Token → Prop
  | .terminal k, ts => ∃ t : Token, ts = [t] ∧ t.kind = k
  | .nonterminal .expr, ts => ∃ e : Phrase .sum, e.tokens = ts
  | .nonterminal .statement, ts => ∃ d : Sentence, d.tokens = ts

theorem yields_primary (e : Phrase .primary) : Yields (.nonterminal .expr) e.tokens :=
  ⟨.ofProduct (.ofUnary (.ofPrimary e)), rfl⟩

theorem eq_of_yields {tok : Token} (h : tok.isBare = true) {ts : List Token}
    (hy : Yields (.terminal tok.kind) ts) : ts = [tok] := by
  obtain ⟨t, rfl, ht⟩ := hy
  rw [Token.eq_of_kind_eq h ht]

def Form.Yields : Form → List Token → Prop
  | [], ts => ts = []
  | s :: form, ts => ∃ us vs, ts = us ++ vs ∧ Reckon.Yields s us ∧ Form.Yields form vs

namespace Form

theorem yields_append {a b : Form} {ts : List Token} :
    Form.Yields (a ++ b) ts ↔ ∃ us vs, ts = us ++ vs ∧ a.Yields us ∧ b.Yields vs := by
  induction a generalizing ts with
  | nil =>
    constructor
    · intro h
      exact ⟨[], ts, rfl, rfl, h⟩
    · intro h
      obtain ⟨us, vs, rfl, rfl, h⟩ := h
      exact h
  | cons s a ih =>
    constructor
    · intro h
      obtain ⟨us, vs, rfl, hs, h⟩ := h
      obtain ⟨vs, ws, rfl, ha, hb⟩ := ih.1 h
      exact ⟨us ++ vs, ws, by simp, ⟨us, vs, rfl, hs, ha⟩, hb⟩
    · intro h
      obtain ⟨us, ws, rfl, ⟨us, vs, rfl, hs, ha⟩, hb⟩ := h
      exact ⟨us, vs ++ ws, by simp, hs, ih.2 ⟨vs, ws, rfl, ha, hb⟩⟩

theorem yields_kinds (ts : List Token) : Form.Yields (ts.map fun t => .terminal t.kind) ts := by
  induction ts with
  | nil => rfl
  | cons t ts ih => exact ⟨[t], ts, rfl, ⟨t, rfl, rfl⟩, ih⟩

theorem Yields.inParens {ts : List Token}
    (h : Form.Yields [.terminal .leftParen, .nonterminal .expr, .terminal .rightParen] ts) :
    ∃ e : Phrase .sum, ts = .leftParen :: e.tokens ++ [.rightParen] := by
  obtain ⟨us, vs, rfl, hopen, vs, ws, rfl, ⟨e, rfl⟩, ws, _, rfl, hclose, rfl⟩ := h
  have ho : us = [.leftParen] := eq_of_yields rfl hopen
  have hc : ws = [.rightParen] := eq_of_yields rfl hclose
  exact ⟨e, by simp [ho, hc]⟩

end Form

/-- Each production holds of the grammar with precedence. -/
theorem Grammar.Production.yields {p : Production} (hp : p ∈ productions) {ts : List Token}
    (h : Form.Yields (p.right.map formSymbol) ts) : Yields (.nonterminal p.left) ts := by
  simp only [productions, List.mem_append, List.mem_cons, List.not_mem_nil, or_false,
    List.mem_map] at hp
  rcases hp with ((rfl | rfl) | ⟨op, -, rfl⟩) | rfl | rfl | rfl | rfl | rfl | rfl
  · obtain ⟨_, _, rfl, ⟨t, rfl, ht⟩, us, _, rfl, heq, _, _, rfl, ⟨e, rfl⟩, rfl⟩ := h
    have heq : us = [.assign] := eq_of_yields rfl heq
    cases t with
    | name text => exact ⟨.assign text e, by simp [heq, Sentence.tokens]⟩
    | _ => cases ht
  · obtain ⟨us, _, rfl, hprint, h⟩ := h
    have hprint : us = [.print] := eq_of_yields rfl hprint
    obtain ⟨e, rfl⟩ := h.inParens
    exact ⟨.print e, by simp [hprint, Sentence.tokens]⟩
  · obtain ⟨_, _, rfl, ⟨left, rfl⟩, us, _, rfl, hop, _, _, rfl, ⟨right, rfl⟩, rfl⟩ := h
    have hop : us = [.operator op] := eq_of_yields rfl hop
    obtain ⟨e, he⟩ := left.exists_sum_of_sums op right
    exact ⟨e, by simp [he, hop]⟩
  · obtain ⟨us, _, rfl, hop, _, _, rfl, ⟨e, rfl⟩, rfl⟩ := h
    have hop : us = [.operator .minus] := eq_of_yields rfl hop
    obtain ⟨e', he⟩ := e.exists_sum_of_minus
    exact ⟨e', by simp [he, hop]⟩
  · obtain ⟨e, rfl⟩ := h.inParens
    exact yields_primary (.group e)
  · obtain ⟨_, _, rfl, ⟨t, rfl, ht⟩, rfl⟩ := h
    cases t with
    | number x => exact yields_primary (.number x)
    | _ => cases ht
  · obtain ⟨_, _, rfl, ⟨t, rfl, ht⟩, rfl⟩ := h
    cases t with
    | complex z => exact yields_primary (.complex z)
    | _ => cases ht
  · obtain ⟨_, _, rfl, ⟨t, rfl, ht⟩, rfl⟩ := h
    cases t with
    | name text => exact yields_primary (.name text)
    | _ => cases ht
  · obtain ⟨us, _, rfl, hroot, h⟩ := h
    have hroot : us = [.sqrt] := eq_of_yields rfl hroot
    obtain ⟨e, rfl⟩ := h.inParens
    rw [hroot]
    exact yields_primary (.root e)

namespace Form

theorem Yields.of_produces {a b : Form} {ts : List Token} (hb : b.Yields ts)
    (h : Grammar.contextFree.Produces a b) : a.Yields ts := by
  obtain ⟨r, hr, hab⟩ := h
  obtain ⟨p, hp, rfl⟩ : ∃ p ∈ Grammar.productions, p.rule = r := by simpa using hr
  obtain ⟨before, after, rfl, rfl⟩ := hab.exists_parts
  obtain ⟨us, ws, rfl, hu, hw⟩ := yields_append.1 hb
  obtain ⟨us, vs, rfl, hu, hv⟩ := yields_append.1 hu
  refine yields_append.2 ⟨us ++ vs, ws, rfl, yields_append.2 ⟨us, vs, rfl, hu, ?_⟩, hw⟩
  exact ⟨vs, [], by simp, Grammar.Production.yields hp hv, rfl⟩

theorem Derives.yields {form : Form} {ts : List Token} (h : form.Derives ts) :
    form.Yields ts := by
  -- From the last form, which has kinds only, back to the first.
  induction h using Relation.ReflTransGen.head_induction_on with
  | refl => exact yields_kinds ts
  | head hstep _ ih => exact ih.of_produces hstep

theorem derives_statement_iff {ts : List Token} :
    Derives [.nonterminal .statement] ts ↔ ∃ d : Sentence, d.tokens = ts := by
  constructor
  · intro h
    obtain ⟨us, _, rfl, ⟨d, rfl⟩, rfl⟩ := h.yields
    exact ⟨d, by simp⟩
  · intro h
    obtain ⟨d, rfl⟩ := h
    exact d.derives_tokens

end Form

/-- Tokens before the end of a line are accepted just when the productions derive their kinds,
although the productions leave precedence open. -/
theorem Statement.read_ok_iff_mem_language (ws : List Spanned) (mark : Spanned)
    (hm : mark.token = .endOfInput) (hws : ∀ t ∈ ws, t.token ≠ .endOfInput) :
    (∃ s, (read (ws ++ [mark])).1 = .ok s) ↔
      ws.map (fun t => t.token.kind) ∈ Grammar.contextFree.language := by
  have hform : ws.map (fun t => t.token.kind) ∈ Grammar.contextFree.language ↔
      Form.Derives [.nonterminal .statement] (ws.map Spanned.token) := by
    rw [ContextFreeGrammar.mem_language_iff, Form.Derives, List.map_map, List.map_map]
    rfl
  rw [hform, Form.derives_statement_iff]
  constructor
  · intro h
    obtain ⟨s, hs⟩ := h
    obtain ⟨d, hd, -⟩ := exists_sentence_of_line hws (Prod.ext hs rfl)
    exact ⟨d, hd⟩
  · intro h
    obtain ⟨d, hd⟩ := h
    exact ⟨d.statement, by rw [read_tokens d hd.symm hm]⟩

theorem minus_before_sum_mem_language :
    [.name, .assign, .operator .minus, .number, .operator .plus, .name, .operator .times,
      .operator .minus, .complex] ∈ Grammar.contextFree.language := by
  have h := Statement.read_ok_iff_mem_language
    [⟨.name "x", 0, 1⟩, ⟨.assign, 2, 3⟩, ⟨.operator .minus, 4, 5⟩, ⟨.number 1, 5, 6⟩,
      ⟨.operator .plus, 7, 8⟩, ⟨.name "y", 9, 10⟩, ⟨.operator .times, 11, 12⟩,
      ⟨.operator .minus, 13, 14⟩, ⟨.complex ⟨1, 2⟩, 15, 19⟩]
    ⟨.endOfInput, 19, 19⟩ rfl (by decide)
  refine h.1 ⟨.assign "x" [.real 1, .negate, .load "y", .complex ⟨1, 2⟩, .negate, .binary .times,
    .binary .plus], ?_⟩
  decide +kernel

end Reckon
