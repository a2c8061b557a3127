import Reckon.Proofs.Draining
import Reckon.Proofs.Recognition
import Reckon.Statement.OnDemand

/-! Reading on demand. A reader that scans its line token by token, with one token looked at in
advance, finds what a reader of the whole list of tokens finds; and wherever it comes to a halt,
scanning the rest of the line completes the same list of unknown characters. -/

set_option autoImplicit false

namespace Reckon
namespace Feed

/-- A feed as a cursor on the list of the tokens to come. -/
def view (f : Feed) : Cursor := .ofCode f.tokens.ahead f.code.toList

@[simp] theorem tokens_emit (f : Feed) (i : Instr) : (f.emit i).tokens = f.tokens := rfl

@[simp] theorem view_emit (f : Feed) (i : Instr) : (f.emit i).view = f.view.emit i := by
  simp [view, emit]

@[simp] theorem view_look (f : Feed) : f.look.view = f.view := by simp [view, look]

@[simp] theorem view_take (f : Feed) :
    f.take.view = .ofCode f.tokens.ahead.tail f.code.toList := by simp [view, take]

theorem view_of_ahead {f : Feed} {ts : List Spanned} (h : f.tokens.ahead = ts) :
    f.view = .ofCode ts f.code.toList := by simp [view, h]

theorem ahead?_eq (f : Feed) : f.ahead? = f.tokens.ahead.head? := f.tokens.peek_fst

@[simp] theorem final_look (f : Feed) : f.look.tokens.final = f.tokens.final := by simp [look]

@[simp] theorem final_take (f : Feed) : f.take.tokens.final = f.tokens.final := by simp [take]

theorem size_take_lt {f : Feed} {t : Spanned} (h : f.ahead? = some t) :
    f.take.tokens.size < f.tokens.size := Lookahead.size_lt_of_peek h

end Feed

namespace OnDemand

theorem expect_eq (kind : Kind) (l : Lookahead) :
    expect kind l = ((Reckon.expect kind l.ahead).1, l.next.2) := by
  unfold expect
  rw [l.next_fst]
  cases l.ahead <;> rfl

end OnDemand

abbrev Puller := Feed → Except Halt Feed

namespace Puller

def skip (kind : Kind) : Puller := fun f => (OnDemand.skip kind f).map Subtype.val

def climb (min : Nat) : Puller := fun f => (OnDemand.climb min f).map Subtype.val

def operators (min : Nat) : Puller := fun f => (OnDemand.operators min f).map Subtype.val

def operand : Puller := fun f => (OnDemand.operand f).map Subtype.val

def emit (i : Instr) : Puller := fun f => .ok (f.emit i)

def andThen (p q : Puller) : Puller := fun f => (p f).bind q

theorem skip_eq (kind : Kind) (f : Feed) : skip kind f =
    match (OnDemand.expect kind f.tokens).1 with
    | .error e => .error ⟨e, ⟨(OnDemand.expect kind f.tokens).2, f.code⟩⟩
    | .ok _ => .ok ⟨(OnDemand.expect kind f.tokens).2, f.code⟩ := by
  unfold skip OnDemand.skip
  split <;> rename_i h <;> simp [h, Except.map]

theorem climb_eq (min : Nat) : climb min = andThen operand (operators min) := by
  funext f
  unfold climb andThen operand operators
  rw [OnDemand.climb]
  cases OnDemand.operand f with
  | error s => rfl
  | ok g =>
    obtain ⟨g, hg⟩ := g
    simp only [Except.map, Except.bind]
    cases OnDemand.operators min g <;> rfl

theorem operators_of_stop {min : Nat} {f : Feed}
    (h : ∀ t op, f.ahead? = some t → t.token = .operator op → op.precedence < min) :
    operators min f = .ok f.look := by
  unfold operators
  rw [OnDemand.operators]
  split
  · rfl
  · rename_i t ht
    split
    · rfl
    · rename_i op hop
      have htoken : t.token = .operator op := by
        cases htoken : t.token <;> simp_all [Token.operator?]
      simp [Nat.not_le.2 (h t op ht htoken), Except.map]

theorem operators_of_le {min : Nat} {f : Feed} {t : Spanned} {op : Operator}
    (ht : f.ahead? = some t) (hop : t.token = .operator op) (h : min ≤ op.precedence) :
    operators min f =
      andThen (climb (op.precedence + 1)) (andThen (emit (.binary op)) (operators min)) f.take := by
  unfold operators climb andThen emit
  rw [OnDemand.operators]
  split
  · rename_i hnone
    rw [hnone] at ht
    cases ht
  · rename_i u hu
    obtain rfl : u = t := Option.some.inj (hu.symm.trans ht)
    simp only [hop, Token.operator?, h, ↓reduceIte, rightMin_level]
    cases OnDemand.climb (op.precedence + 1) f.take with
    | error s => rfl
    | ok g =>
      obtain ⟨g, hg⟩ := g
      simp only [Except.map, Except.bind]
      cases OnDemand.operators min (g.emit (.binary op)) <;> rfl

theorem operand_of_none {f : Feed} (h : f.ahead? = none) :
    operand f = .error ⟨.endOfInput, f.take⟩ := by
  unfold operand
  rw [OnDemand.operand]
  split
  · rfl
  · rename_i t ht
    rw [h] at ht
    cases ht

theorem operand_of_some {f : Feed} {t : Spanned} (h : f.ahead? = some t) :
    operand f = match t.token with
      | .operator .minus => andThen (climb 3) (emit .negate) f.take
      | .number x => .ok (f.take.emit (.real x))
      | .complex z => .ok (f.take.emit (.complex z))
      | .name text => .ok (f.take.emit (.load text))
      | .leftParen => andThen (climb 1) (skip .rightParen) f.take
      | .sqrt =>
        andThen (skip .leftParen) (andThen (climb 1) (andThen (skip .rightParen) (emit .root)))
          f.take
      | _ => .error ⟨.ofSpanned t, f.take⟩ := by
  unfold operand climb andThen emit skip
  rw [OnDemand.operand]
  split
  · rename_i hnone
    rw [hnone] at h
    cases h
  · rename_i u hu
    obtain rfl : u = t := Option.some.inj (hu.symm.trans h)
    cases ht : u.token with
    | operator op =>
      cases op with
      | minus =>
        simp only [show Level.unaryMinus.precedence = 3 from rfl]
        cases OnDemand.climb 3 f.take <;> rfl
      | _ => rfl
    | leftParen =>
      simp only [show Level.additive.precedence = 1 from rfl]
      cases OnDemand.climb 1 f.take with
      | error s => rfl
      | ok g =>
        simp only [Except.map, Except.bind]
        cases OnDemand.skip .rightParen g.val <;> rfl
    | sqrt =>
      simp only [show Level.additive.precedence = 1 from rfl]
      cases OnDemand.skip .leftParen f.take with
      | error s => rfl
      | ok b =>
        simp only [Except.map, Except.bind]
        cases OnDemand.climb 1 b.val with
        | error s => rfl
        | ok g =>
          simp only
          cases OnDemand.skip .rightParen g.val <;> rfl
    | _ => rfl

def shown : Except Halt Feed → Except Stop Cursor × Scanner
  | .ok g => (.ok g.view, g.tokens.final)
  | .error h => (.error ⟨h.error, h.feed.view⟩, h.feed.tokens.final)

/-- On the feed `p` does what `r` does on the list of the tokens to come, and it loses nothing of
the line. -/
def Mirrors (p : Puller) (r : Reader) (f : Feed) : Prop :=
  shown (p f) = (r f.view, f.tokens.final)

theorem Mirrors.andThen {p q : Puller} {r r' : Reader} {f : Feed} (hp : Mirrors p r f)
    (hq : ∀ g, p f = .ok g → Mirrors q r' g) : Mirrors (p.andThen q) (r.andThen r') f := by
  unfold Mirrors Puller.andThen Reader.andThen at *
  cases h : p f with
  | error s =>
    obtain ⟨hr, hfinal⟩ := Prod.mk.inj (h ▸ hp)
    simp [shown, Except.bind, ← hr, hfinal]
  | ok g =>
    obtain ⟨hr, hfinal⟩ := Prod.mk.inj (h ▸ hp)
    have hg := hq g h
    simp only [Except.bind, ← hr, ← hfinal]
    exact hg

theorem mirrors_emit (i : Instr) (f : Feed) : Mirrors (emit i) (Reader.emit i) f := by
  simp [Mirrors, emit, Reader.emit, shown]

theorem mirrors_skip (kind : Kind) (f : Feed) : Mirrors (skip kind) (Reader.skip kind) f := by
  unfold Mirrors
  rw [skip_eq, OnDemand.expect_eq]
  cases h : f.tokens.ahead with
  | nil => simp [expect, shown, Feed.view, h, Reader.skip_nil]
  | cons t ts =>
    rw [Feed.view_of_ahead h, Reader.skip_cons]
    by_cases hk : t.token.kind = kind <;> simp [expect, hk, shown, Feed.view, h]

theorem size_lt_of_map {f g : Feed} {r : Except Halt f.Before} (h : r.map Subtype.val = .ok g) :
    g.tokens.size < f.tokens.size := by
  obtain ⟨b, -, rfl⟩ := exists_of_map_eq_ok h
  exact b.property

theorem mirrors_operand {f : Feed}
    (ih : ∀ min g, g.tokens.size < f.tokens.size → Mirrors (climb min) (Reader.climb min) g) :
    Mirrors operand Reader.operand f := by
  cases h : f.tokens.ahead with
  | nil =>
    have hnone : f.ahead? = none := by simp [f.ahead?_eq, h]
    simp [Mirrors, operand_of_none hnone, Feed.view_of_ahead h, Reader.operand_nil, shown, h]
  | cons t ts =>
    have hsome : f.ahead? = some t := by simp [f.ahead?_eq, h]
    have hview : f.take.view = .ofCode ts f.code.toList := by simp [h]
    have hlt := Feed.size_take_lt hsome
    unfold Mirrors
    rw [operand_of_some hsome, Feed.view_of_ahead h, Reader.operand_cons, ← hview, ← f.final_take]
    cases t.token with
    | operator op =>
      cases op with
      | minus => exact (ih 3 f.take hlt).andThen fun g _ => mirrors_emit .negate g
      | _ => rfl
    | leftParen => exact (ih 1 f.take hlt).andThen fun g _ => mirrors_skip .rightParen g
    | sqrt =>
      refine (mirrors_skip .leftParen f.take).andThen fun b hb => ?_
      refine (ih 1 b (Nat.lt_trans (size_lt_of_map hb) hlt)).andThen fun g _ => ?_
      exact (mirrors_skip .rightParen g).andThen fun k _ => mirrors_emit .root k
    | number x => simp [shown, h]
    | complex z => simp [shown, h]
    | name text => simp [shown, h]
    | _ => rfl

theorem mirrors_operators {min : Nat} {f : Feed}
    (ih : ∀ k g, g.tokens.size < f.tokens.size → Mirrors (climb k) (Reader.climb k) g) :
    Mirrors (operators min) (Reader.operators min) f := by
  induction hn : f.tokens.size using Nat.strong_induction_on generalizing f with
  | h n hstep =>
    rcases Reader.stops_or_joins min f.tokens.ahead with hs | ⟨t, op, ts, h, ht, hp⟩
    -- The token that was looked at stays in the window, which the view does not show.
    · have hstop : operators min f = .ok f.look := by
        refine operators_of_stop fun t op hahead ht => ?_
        obtain ⟨ts, h⟩ := List.head?_eq_some_iff.1 (f.ahead?_eq ▸ hahead)
        exact (h ▸ hs : Stops min (t :: ts)) op ht
      have hread := Reader.operators_of_stops hs f.code.toList
      rw [← Feed.view_of_ahead rfl] at hread
      simp [Mirrors, hstop, shown, hread]
    · have hsome : f.ahead? = some t := by simp [f.ahead?_eq, h]
      have hview : f.take.view = .ofCode ts f.code.toList := by simp [h]
      have hlt := Feed.size_take_lt hsome
      unfold Mirrors
      rw [operators_of_le hsome ht hp, Feed.view_of_ahead h, Reader.operators_of_le ht hp, ← hview,
        ← f.final_take]
      refine (ih _ f.take hlt).andThen fun g hg => ?_
      refine (mirrors_emit (.binary op) g).andThen fun k hk => ?_
      obtain rfl : g.emit (.binary op) = k := Except.ok.inj hk
      have hless : (g.emit (.binary op)).tokens.size < f.tokens.size :=
        Nat.lt_trans (size_lt_of_map hg : g.tokens.size < _) hlt
      exact hstep _ (hn ▸ hless) (fun k b hb => ih k b (Nat.lt_trans hb hless)) rfl

theorem mirrors_climb (min : Nat) (f : Feed) : Mirrors (climb min) (Reader.climb min) f := by
  -- By the tokens to come: every reading within this one begins after a token has been taken.
  induction hn : f.tokens.size using Nat.strong_induction_on generalizing min f with
  | h n ih =>
    have hsmaller : ∀ k g, g.tokens.size < f.tokens.size →
        Mirrors (climb k) (Reader.climb k) g := fun k g hg => ih _ (hn ▸ hg) k g rfl
    rw [climb_eq, Reader.climb_eq]
    refine (mirrors_operand hsmaller).andThen fun g hg => mirrors_operators fun k b hb => ?_
    exact hsmaller k b (Nat.lt_trans hb (size_lt_of_map hg))

end Puller

/-- Reading on demand gave the answer that reading a list gave and left the tokens that it left;
the whole line scanned, the scanner is `last`. -/
def Agrees (last : Scanner) {α : Type} (a : Except SyntaxError α × Lookahead)
    (b : Except SyntaxError α × List Spanned) : Prop :=
  ∃ r l, a = (r, l) ∧ b = (r, l.ahead) ∧ l.final = last

namespace OnDemand

theorem agrees_expect (kind : Kind) (l : Lookahead) :
    Agrees l.final (expect kind l) (Reckon.expect kind l.ahead) := by
  refine ⟨_, l.next.2, expect_eq kind l, Prod.ext rfl ?_, l.final_next⟩
  rw [l.ahead_next]
  cases l.ahead <;> rfl

def finish : Except Halt Feed → Except SyntaxError Code × Lookahead
  | .ok f => (.ok f.code.toList, f.tokens)
  | .error h => (.error h.error, h.feed.tokens)

theorem readExpression_eq (l : Lookahead) :
    readExpression l = finish (Puller.climb 1 ⟨l, #[]⟩) := by
  unfold readExpression Puller.climb
  rw [show Level.additive.precedence = 1 from rfl]
  cases climb 1 ⟨l, #[]⟩ <;> rfl

theorem agrees_readExpression (l : Lookahead) :
    Agrees l.final (readExpression l) (Statement.readExpression l.ahead) := by
  have hclimb : Puller.shown (Puller.climb 1 ⟨l, #[]⟩) =
      (Reader.climb 1 (.ofCode l.ahead []), l.final) := Puller.mirrors_climb 1 ⟨l, #[]⟩
  rw [readExpression_eq, Statement.readExpression_eq]
  cases hp : Puller.climb 1 ⟨l, #[]⟩ with
  | error s =>
    obtain ⟨hr, hfinal⟩ := Prod.mk.inj (hp ▸ hclimb)
    rw [← hr]
    exact ⟨.error s.error, s.feed.tokens, rfl, rfl, hfinal⟩
  | ok f =>
    obtain ⟨hr, hfinal⟩ := Prod.mk.inj (hp ▸ hclimb)
    rw [← hr]
    exact ⟨.ok f.code.toList, f.tokens, rfl, rfl, hfinal⟩

theorem exists_expect_eq (kind : Kind) {l : Lookahead} {t : Spanned} {ts : List Spanned}
    (h : l.ahead = t :: ts) (ht : t.token.kind = kind) :
    ∃ l', expect kind l = (.ok t, l') ∧ l'.ahead = ts ∧ l'.final = l.final := by
  refine ⟨l.next.2, ?_, ?_, l.final_next⟩
  · simp [expect_eq, h, Reckon.expect, ht]
  · simp [h]

theorem agrees_readAssign {name : String} {l : Lookahead} {t : Spanned} {ts : List Spanned}
    (h : l.ahead = t :: ts) (ht : t.token = .name name) :
    Agrees l.final (readAssign name l) (Statement.readAssign name ts) := by
  obtain ⟨l₁, htaken, rfl, hfinal⟩ := exists_expect_eq .name h (by rw [ht]; rfl)
  unfold readAssign Statement.readAssign
  rw [htaken, ← hfinal]
  obtain ⟨r, l₂, ha, hb, h₂⟩ := agrees_expect .assign l₁
  simp only [ha, hb, ← h₂]
  cases r with
  | error e => exact ⟨.error e, l₂, rfl, rfl, rfl⟩
  | ok _ =>
    obtain ⟨r, l₃, ha, hb, h₃⟩ := agrees_readExpression l₂
    simp only [ha, hb, ← h₃]
    cases r with
    | error e => exact ⟨.error e, l₃, rfl, rfl, rfl⟩
    | ok code => exact ⟨.ok (.assign name code), l₃, rfl, rfl, rfl⟩

theorem agrees_readPrint {l : Lookahead} {t : Spanned} {ts : List Spanned} (h : l.ahead = t :: ts)
    (ht : t.token = .print) : Agrees l.final (readPrint l) (Statement.readPrint ts) := by
  obtain ⟨l₁, htaken, rfl, hfinal⟩ := exists_expect_eq .print h (by rw [ht]; rfl)
  unfold readPrint Statement.readPrint
  rw [htaken, ← hfinal]
  obtain ⟨r, l₂, ha, hb, h₂⟩ := agrees_expect .leftParen l₁
  simp only [ha, hb, ← h₂]
  cases r with
  | error e => exact ⟨.error e, l₂, rfl, rfl, rfl⟩
  | ok _ =>
    obtain ⟨r, l₃, ha, hb, h₃⟩ := agrees_readExpression l₂
    simp only [ha, hb, ← h₃]
    cases r with
    | error e => exact ⟨.error e, l₃, rfl, rfl, rfl⟩
    | ok code =>
      obtain ⟨r, l₄, ha, hb, h₄⟩ := agrees_expect .rightParen l₃
      simp only [ha, hb, ← h₄]
      cases r with
      | error e => exact ⟨.error e, l₄, rfl, rfl, rfl⟩
      | ok _ => exact ⟨.ok (.print code), l₄, rfl, rfl, rfl⟩

theorem agrees_readForm (l : Lookahead) :
    Agrees l.final (readForm l) (Statement.readForm l.ahead) := by
  have hpeek : l.peek = (l.ahead.head?, l.peek.2) := by rw [← l.peek_fst]
  unfold readForm Statement.readForm
  rw [hpeek, ← l.final_peek, ← l.ahead_peek]
  cases h : l.peek.2.ahead with
  | nil => exact ⟨.error .endOfInput, l.peek.2, rfl, by rw [h], rfl⟩
  | cons t ts =>
    simp only [List.head?_cons]
    cases ht : t.token with
    | name text => exact agrees_readAssign h ht
    | print => exact agrees_readPrint h ht
    | _ => exact ⟨.error (.ofSpanned t), l.peek.2, rfl, by rw [h], rfl⟩

theorem agrees_read (l : Lookahead) : Agrees l.final (read l) (Statement.read l.ahead) := by
  unfold read Statement.read
  obtain ⟨r, l₁, ha, hb, h₁⟩ := agrees_readForm l
  simp only [ha, hb, ← h₁]
  cases r with
  | error e => exact ⟨.error e, l₁, rfl, rfl, rfl⟩
  | ok s =>
    obtain ⟨r, l₂, ha, hb, h₂⟩ := agrees_expect .endOfInput l₁
    simp only [ha, hb, ← h₂]
    cases r with
    | error e => exact ⟨.error e, l₂, rfl, rfl, rfl⟩
    | ok _ => exact ⟨.ok s, l₂, rfl, rfl, rfl⟩

/-- A scanner's answers are the tokens of the line in turn and then nothing; with each token it has
noted the unknown characters before it, and all of them from the end of the line on. Drained at any
moment it completes the same list, and reading on demand finds what reading the whole list of
tokens finds. -/
theorem steps_and_parse_eq_drained (line : List Char) :
    (∀ k, ((Scanner.start line).steps k).map (fun r => (r.1, r.2.unknowns)) =
      ((Scan.tokens line).map
          (fun t : Spanned => (some t, t.unknownsBefore (Scan.unknowns line))) ++
        List.replicate k (none, Scan.unknowns line)).take k) ∧
    (∀ u ∈ Scan.unknowns line, u.column < line.length) ∧
    ((Scanner.start line).drain.1 = Scan.tokens line ∧
      (Scanner.start line).drain.2.unknowns = Scan.unknowns line) ∧
    (∀ k, ∀ r ∈ (Scanner.start line).steps k, r.2.drain.2.unknowns = Scan.unknowns line) ∧
    parse line =
      ((Statement.read (Scanner.start line).drain.1).1, (Scanner.start line).drain.2.unknowns) := by
  have hamid := Scanner.Amid.start line
  have hdrain : (Scanner.start line).drain =
      (Scan.tokens line, ⟨[], line.length, Scan.unknowns line, true⟩) := hamid.drain
  refine ⟨fun k => ?_, fun u hu => ?_, by simp [hdrain], fun k r hr => ?_, ?_⟩
  · have hsteps := hamid.steps k
    rwa [hdrain] at hsteps
  · exact hamid.bound (.unknown u) (by simpa [Scanner.start] using Scan.mem_unknowns.1 hu)
  · rw [Scanner.drain_of_mem_steps hr, hdrain]
  · obtain ⟨r, l, hread, hlist, hfinal⟩ := agrees_read (.start line)
    have hahead : (Lookahead.start line).ahead = (Scanner.start line).drain.1 := rfl
    have hlast : l.scanner.drain.2 = (Scanner.start line).drain.2 := hfinal
    rw [hahead] at hlist
    simp only [parse, hread, hlist, hlast]

end OnDemand
end Reckon
