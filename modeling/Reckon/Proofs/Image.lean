import Reckon.Proofs.Evaluation
import Reckon.Proofs.Spelling

/-! What can be compiled. Code that never lacks an operand and ends with one value is the code
of an expression, which is written out with parentheses around every operation; so such code
comes from a line as soon as its numbers and names can be written. -/

set_option autoImplicit false

namespace Reckon
namespace Code

theorem Fed.cons {start : Int} {i : Instr} {code : Code} (h : Fed start (i :: code)) :
    (i.operands : Int) ≤ start ∧ Fed (start + i.effect) code := by
  constructor
  · simpa [depth] using h [] code i rfl
  · intro before after j hj
    have hle := h (i :: before) after j (by rw [hj, List.cons_append])
    rw [depth] at hle
    omega

/-- The code that leaves the values of a stack of expressions, the first being its top. -/
def ofStack (es : List Expr) : Code := es.reverse.flatMap Expr.code

theorem ofStack_append (es rest : List Expr) :
    ofStack (es ++ rest) = ofStack rest ++ ofStack es := by simp [ofStack]

theorem ofStack_cons (e : Expr) (es : List Expr) : ofStack (e :: es) = ofStack es ++ e.code := by
  simp [ofStack]

theorem exists_expr_of_instr (i : Instr) {args : List Expr} (h : args.length = i.operands) :
    ∃ e : Expr, e.code = ofStack args ++ [i] := by
  cases i with
  | real x =>
    rw [List.length_eq_zero_iff.1 h]
    exact ⟨.real x, rfl⟩
  | complex z =>
    rw [List.length_eq_zero_iff.1 h]
    exact ⟨.complex z, rfl⟩
  | load name =>
    rw [List.length_eq_zero_iff.1 h]
    exact ⟨.load name, rfl⟩
  | negate =>
    obtain ⟨e, rfl⟩ := List.length_eq_one_iff.1 h
    exact ⟨.negate e, by simp [ofStack, Expr.code]⟩
  | root =>
    obtain ⟨e, rfl⟩ := List.length_eq_one_iff.1 h
    exact ⟨.root e, by simp [ofStack, Expr.code]⟩
  | binary op =>
    obtain ⟨right, left, rfl⟩ := List.length_eq_two.1 h
    exact ⟨.binary op left right, by simp [ofStack, Expr.code]⟩

theorem exists_stack_of_instr (i : Instr) {es : List Expr} (h : i.operands ≤ es.length) :
    ∃ es' : List Expr, (es'.length : Int) = es.length + i.effect ∧
      ofStack es' = ofStack es ++ [i] := by
  obtain ⟨e, he⟩ := exists_expr_of_instr i (List.length_take_of_le h)
  refine ⟨e :: es.drop i.operands, ?_, ?_⟩
  · rw [List.length_cons, List.length_drop, Instr.effect_eq]
    omega
  · rw [ofStack_cons, he, ← List.append_assoc, ← ofStack_append, List.take_append_drop]

theorem exists_stack {code : Code} {es : List Expr} (h : Fed es.length code) :
    ∃ es' : List Expr, (es'.length : Int) = es.length + depth code ∧
      ofStack es' = ofStack es ++ code := by
  induction code generalizing es with
  | nil => exact ⟨es, by simp [depth], by simp⟩
  | cons i code ih =>
    obtain ⟨hi, hcode⟩ := h.cons
    obtain ⟨es₁, hlen, hes₁⟩ := exists_stack_of_instr i (Int.ofNat_le.1 hi)
    rw [← hlen] at hcode
    obtain ⟨es', hlen', hes'⟩ := ih hcode
    refine ⟨es', ?_, ?_⟩
    · rw [hlen', hlen, depth, Int.add_assoc]
    · rw [hes', hes₁, List.append_assoc, List.singleton_append]

/-- Code that finds its operands and ends with one value is the code of an expression. -/
theorem exists_expr {code : Code} (h : Fed 0 code) (hd : depth code = 1) :
    ∃ e : Expr, e.code = code := by
  obtain ⟨es, hlen, hes⟩ := exists_stack (show Fed (([] : List Expr).length : Int) code from h)
  have hone : es.length = 1 := by
    rw [hd] at hlen
    simpa using Int.ofNat_inj.1 hlen
  obtain ⟨e, rfl⟩ := List.length_eq_one_iff.1 hone
  exact ⟨e, by simpa [ofStack] using hes⟩

end Code

namespace Instr

def Writable : Instr → Prop
  | real x => x.isNan = false ∧ x.isNegative = false
  | complex z => z.re.isNan = false ∧ z.im.isNan = false
  | load name => name.toList ∈ Pattern.name.matches' ∧ name ≠ "sqrt" ∧ name ≠ "print"
  | negate | root | binary _ => True

@[simp] theorem writable_negate : negate.Writable := trivial

@[simp] theorem writable_root : root.Writable := trivial

@[simp] theorem writable_binary (op : Operator) : (binary op).Writable := trivial

end Instr

namespace Phrase

theorem writable_tokens_iff {r : Rank} (p : Phrase r) :
    (∀ t ∈ p.tokens, t.Writable) ↔ ∀ i ∈ p.expr.code, i.Writable := by
  induction p with
  | number x => simp only [tokens, expr, Expr.code, List.forall_mem_singleton]; rfl
  | complex z => simp only [tokens, expr, Expr.code, List.forall_mem_singleton]; rfl
  | name text => simp only [tokens, expr, Expr.code, List.forall_mem_singleton]; rfl
  | group e ih => simp [tokens, expr, or_imp, forall_and, ih]
  | root e ih => simp [tokens, expr, Expr.code, or_imp, forall_and, ih]
  | ofPrimary e ih => exact ih
  | negate e ih => simp [tokens, expr, Expr.code, or_imp, forall_and, ih]
  | ofUnary e ih => exact ih
  | product left op ho right ihl ihr =>
    simp [tokens, expr, Expr.code, or_imp, forall_and, ihl, ihr]
  | ofProduct e ih => exact ih
  | sum left op ho right ihl ihr =>
    simp [tokens, expr, Expr.code, or_imp, forall_and, ihl, ihr]

def whole (p : Phrase .primary) : Phrase .sum := .ofProduct (.ofUnary (.ofPrimary p))

def between (op : Operator) (left right : Phrase .primary) : Phrase .sum :=
  if h : op = .times ∨ op = .divide then
    .ofProduct (.product (.ofUnary (.ofPrimary left)) op h (.ofPrimary right))
  else
    .sum left.whole op (by cases op <;> simp at h ⊢) (.ofUnary (.ofPrimary right))

theorem expr_between (op : Operator) (left right : Phrase .primary) :
    (between op left right).expr = .binary op left.expr right.expr := by
  unfold between
  split <;> rfl

/-- An expression with parentheses around every operation. -/
def ofExpr : Expr → Phrase .primary
  | .real x => .number x
  | .complex z => .complex z
  | .load text => .name text
  | .negate e => .group (.ofProduct (.ofUnary (.negate (.ofPrimary (ofExpr e)))))
  | .root e => .root (ofExpr e).whole
  | .binary op left right => .group (between op (ofExpr left) (ofExpr right))

theorem expr_ofExpr (e : Expr) : (ofExpr e).expr = e := by
  induction e with
  | real x => rfl
  | complex z => rfl
  | load name => rfl
  | negate e ih => exact congrArg Expr.negate ih
  | root e ih => exact congrArg Expr.root ih
  | binary op left right ihl ihr => rw [ofExpr, expr, expr_between, ihl, ihr]

end Phrase

theorem Sentence.writable_code {d : Sentence} (h : ∀ t ∈ d.tokens, t.Writable) :
    ∀ i ∈ d.expr.code, i.Writable := by
  cases d with
  | assign name e => exact e.writable_tokens_iff.1 fun t ht => h t (by simp [tokens, ht])
  | print e => exact e.writable_tokens_iff.1 fun t ht => h t (by simp [tokens, ht])

theorem Munched.spells_of_mem {column : Nat} {cs : List Char} {items : List Item} {t : Spanned}
    (h : Munched column cs items) (ht : .token t ∈ items) : ∃ w, Spells w t.token := by
  induction h with
  | done column => simp at ht
  | skip hc h ih => exact ih ht
  | token hw hs h ih =>
    rcases List.mem_cons.1 ht with he | ht
    · cases he
      exact ⟨_, hs⟩
    · exact ih ht
  | unknown hs hc h ih => exact ih (by simpa using ht)

namespace Scan

theorem writable_of_mem_words {line : List Char} {t : Spanned} (h : t ∈ words line) :
    t.token.Writable := by
  obtain ⟨item, hmem, hitem⟩ := List.mem_filterMap.1 h
  cases item with
  | token u =>
    cases hitem
    obtain ⟨w, hw⟩ := (munched_itemsFrom 0 line).spells_of_mem hmem
    exact hw.writable
  | unknown u => cases hitem

theorem words_of_items {line : List Char} {found : List Spanned}
    (h : items line = found.map .token) : words line = found ∧ unknowns line = [] := by
  constructor
  · rw [words, h, List.filterMap_map]
    exact List.filterMap_some
  · rw [unknowns, h, List.filterMap_map]
    exact List.filterMap_none found

theorem ofLine_of_items {line : List Char} {found : List Spanned} {d : Sentence}
    (hitems : items line = found.map .token) (hfound : found.map Spanned.token = d.tokens) :
    unknowns line = [] ∧ Statement.ofLine line = .ok d.statement := by
  obtain ⟨hwords, hunknowns⟩ := words_of_items hitems
  refine ⟨hunknowns, ?_⟩
  rw [Statement.ofLine, tokens_eq, hwords, Statement.read_tokens d hfound rfl []]

theorem ofLine_spaced {d : Sentence} (h : ∀ t ∈ d.tokens, t.Writable) :
    unknowns (spaced d.tokens) = [] ∧ Statement.ofLine (spaced d.tokens) = .ok d.statement := by
  obtain ⟨found, hfound, hitems⟩ := itemsFrom_spaced h 0
  exact ofLine_of_items hitems hfound

end Scan

/-- Code comes from a line without unknown characters exactly if it never lacks an operand, ends
with one value and holds no number or name that a line cannot hold. -/
theorem Code.exists_line_iff (code : Code) :
    (∃ (line : List Char) (s : Statement), Scan.unknowns line = [] ∧
      Statement.ofLine line = .ok s ∧ s.code = code) ↔
      (Fed 0 code ∧ depth code = 1) ∧ ∀ i ∈ code, i.Writable := by
  constructor
  · rintro ⟨line, s, -, hs, rfl⟩
    obtain ⟨d, hd, rfl⟩ := Statement.exists_sentence_of_ofLine hs
    rw [d.code_statement]
    refine ⟨⟨d.expr.fed_code (Int.le_refl 0), d.expr.depth_code⟩, Sentence.writable_code ?_⟩
    rw [hd]
    intro t ht
    obtain ⟨w, hw, rfl⟩ := List.mem_map.1 ht
    exact Scan.writable_of_mem_words hw
  · rintro ⟨⟨hfed, hdepth⟩, hwritable⟩
    obtain ⟨e, rfl⟩ := exists_expr hfed hdepth
    have hexpr : (Phrase.ofExpr e).whole.expr = e := Phrase.expr_ofExpr e
    have htokens : ∀ t ∈ (Sentence.print (Phrase.ofExpr e).whole).tokens, t.Writable := by
      simp only [Sentence.tokens, List.forall_mem_append, List.forall_mem_cons,
        Phrase.writable_tokens_iff, hexpr]
      simpa using hwritable
    obtain ⟨hunknowns, hline⟩ := Scan.ofLine_spaced htokens
    exact ⟨_, _, hunknowns, hline, congrArg Expr.code hexpr⟩

end Reckon
