import Mathlib.Control.Monad.Basic
import Reckon.Proofs.Parses

/-! Climbing at a level of precedence, as its callers see it. It takes a phrase of that level from
the front of the tokens and appends the code of the phrase, whatever was written before; it stops
at the first operator of the level that it may not take, and what comes after that has no
influence on what was taken. -/

set_option autoImplicit false

namespace Reckon
namespace Phrase

/-- The operators of a phrase that stand outside all its parentheses. -/
def outer : {r : Rank} → Phrase r → List Operator
  | _, number _ | _, complex _ | _, name _ | _, group _ | _, root _ => []
  | _, ofPrimary e => e.outer
  | _, negate e => e.outer
  | _, ofUnary e => e.outer
  | _, product left op _ right => left.outer ++ op :: right.outer
  | _, ofProduct e => e.outer
  | _, sum left op _ right => left.outer ++ op :: right.outer

end Phrase

def Rank.Joins : Rank → Operator → Prop
  | .primary, _ | .unary, _ => False
  | .product, op => 2 ≤ op.precedence
  | .sum, op => 1 ≤ op.precedence

theorem one_le_precedence (op : Operator) : 1 ≤ op.precedence := by cases op <;> decide

theorem Phrase.joins_of_mem_outer {r : Rank} {p : Phrase r} {op : Operator} (h : op ∈ p.outer) :
    r.Joins op := by
  induction p with
  | ofPrimary e ih => exact ih h
  | negate e ih => exact ih h
  | ofUnary e ih => exact (ih h).elim
  | product left op' ho right ihl ihr =>
    rcases List.mem_append.1 h with h | h
    · exact ihl h
    · rcases List.mem_cons.1 h with rfl | h
      · rcases ho with rfl | rfl <;> exact Nat.le_refl 2
      · exact (ihr h).elim
  | ofProduct e ih => exact one_le_precedence op
  | sum left op' ho right ihl ihr => exact one_le_precedence op
  | _ => simp [outer] at h

theorem precedence_of_joins {min : Nat} {op : Operator} (h : (rankOf min).Joins op) :
    min ≤ op.precedence := by
  match min with
  | 0 => exact Nat.zero_le _
  | 1 => exact h
  | 2 => exact h
  | _ + 3 => exact h.elim

theorem rankOf_admits (min : Nat) : (rankOf min).Admits min := by
  match min with
  | 0 | 1 | 2 => simp [rankOf, Rank.Admits]
  | _ + 3 => trivial

theorem le_one_of_rankOf_eq_sum {min : Nat} (h : rankOf min = .sum) : min ≤ 1 := by
  match min with
  | 0 | 1 => omega
  | 2 => cases h
  | _ + 3 => cases h

theorem Phrase.eq_of_tokens_eq {r : Rank} {p q : Phrase r} (h : p.tokens = q.tokens) : p = q := by
  have hnil : ∀ r, Ends r [] := fun r op rest h => by cases h
  have happend : p.tokens ++ [] = q.tokens ++ [] := by rw [h]
  have hcomparable := extends_or_extends p q happend (fun _ => hnil _) (fun _ => hnil _)
  exact eq_of_comparable hcomparable happend (hnil r) (hnil r)

/-- The tokens and the code of one phrase of a level, which is read as such before whatever does
not go on with an operator of the level. -/
structure Climbed (min : Nat) (pre : List Spanned) (out : Code) : Prop where
  nonempty : pre ≠ []
  tree : ∃ p : Phrase (rankOf min),
    (p.tokens = pre.map Spanned.token ∧
      ∀ q : Phrase (rankOf min), q.tokens = pre.map Spanned.token → q = p) ∧
    p.expr.code = out ∧ ∀ op ∈ p.outer, min ≤ op.precedence
  again : ∀ (rest : List Spanned) (code : Array Instr), Stops min rest →
    ∃ d : Cursor.Before ⟨pre ++ rest, code⟩, climb min ⟨pre ++ rest, code⟩ = .ok d ∧
      d.val.input = rest ∧ d.val.code.toList = code.toList ++ out

/-- Whatever a reader does, it does after any code, which it leaves as it is. -/
theorem Parses.run_cases {L : Language} {f : Reader} {ts : List Spanned} (h : Parses L f ts)
    (code : Code) :
    (∃ (pre rest : List Spanned) (out : Code), ts = pre ++ rest ∧ L (pre.map Spanned.token) out ∧
      f (.ofCode ts code) = .ok (.ofCode rest (code ++ out))) ∨
    ∃ (e : SyntaxError) (rest : List Spanned) (out : Code),
      f (.ofCode ts code) = .error ⟨e, .ofCode rest (code ++ out)⟩ := by
  cases h with
  | ok pre rest out split word run =>
    exact .inl ⟨pre, rest, out, split, word, by rw [split, run rest code rfl]⟩
  | wrong pre rest t out split viable run =>
    exact .inr ⟨.ofSpanned t, rest, out, by rw [split, run]⟩
  | short out viable run => exact .inr ⟨.endOfInput, [], out, run code⟩

namespace Reader

theorem climb_of_ok {min : Nat} {c : Cursor} {d : c.Before} (h : Reckon.climb min c = .ok d) :
    climb min c = .ok d.val := by simp [climb, h, Except.map]

theorem climb_of_stop {min : Nat} {c : Cursor} {s : Stop} (h : Reckon.climb min c = .error s) :
    climb min c = .error s := by simp [climb, h, Except.map]

theorem climb_phrase {min : Nat} (p : Phrase (rankOf min)) {pre rest : List Spanned}
    (hp : pre.map Spanned.token = p.tokens) (hrest : Stops min rest) (code : Code) :
    climb min (.ofCode (pre ++ rest) code) = .ok (.ofCode rest (code ++ p.expr.code)) := by
  have htail : rankOf min = .sum → Stops 2 rest := by
    intro hsum
    have hmin := le_one_of_rankOf_eq_sum hsum
    exact stops_of_le hrest (by omega)
  exact climb_of_stops (climb_tokens p min hp (rankOf_admits min) htail code) hrest

end Reader

theorem Spelled.climbed {min : Nat} {pre : List Spanned} {out : Code} (hne : pre ≠ [])
    (h : Spelled min (pre.map Spanned.token) out) : Climbed min pre out := by
  obtain ⟨p, hp, rfl⟩ := h
  refine ⟨hne, ⟨p, ⟨hp, fun q hq => ?_⟩, rfl, fun op hop => ?_⟩, fun rest code hrest => ?_⟩
  · exact Phrase.eq_of_tokens_eq (hq.trans hp.symm)
  · exact precedence_of_joins (Phrase.joins_of_mem_outer hop)
  · obtain ⟨d, hd, hval⟩ := exists_of_map_eq_ok (Reader.climb_phrase p hp.symm hrest code.toList)
    exact ⟨d, hd, by rw [hval]; rfl, by rw [hval]; simp [Cursor.ofCode]⟩

/-- Climbing at any level, from any tokens and after any code. If it succeeds it has taken a phrase
of the level from the front of the tokens and appended the code of that phrase, and the tokens left
over do not go on with an operator of the level. If it fails, the code from before is still
there. -/
theorem climb_takes_phrase_and_keeps_code (min : Nat) (c : Cursor) :
    (∀ d : c.Before, climb min c = .ok d →
      Stops min d.val.input ∧
      ∃ (pre : List Spanned) (out : Code), c.input = pre ++ d.val.input ∧
        d.val.code.toList = c.code.toList ++ out ∧ Climbed min pre out) ∧
    ∀ s : Stop, climb min c = .error s → ∃ out, s.cursor.code.toList = c.code.toList ++ out := by
  have hcases := (parses_climb min c.input).run_cases c.code.toList
  rw [Cursor.ofCode_input_code] at hcases
  refine ⟨fun d hd => ?_, fun s hs => ?_⟩
  · have hclimb := Reader.climb_of_ok hd
    rcases hcases with ⟨pre, rest, out, hsplit, hword, hrun⟩ | ⟨e, rest, out, hrun⟩
    · have hval : d.val = .ofCode rest (c.code.toList ++ out) := by
        simpa [hrun, eq_comm] using hclimb
      have hne : pre ≠ [] := by
        intro hnil
        have hlen := d.property
        simp [hval, hsplit, hnil, Cursor.ofCode] at hlen
      refine ⟨Reader.stops_of_climb hclimb, pre, out, ?_, ?_, hword.climbed hne⟩
      · rw [hval]
        exact hsplit
      · simp [hval, Cursor.ofCode]
    · simp [hrun] at hclimb
  · have hclimb := Reader.climb_of_stop hs
    rcases hcases with ⟨pre, rest, out, -, -, hrun⟩ | ⟨e, rest, out, hrun⟩
    · simp [hrun] at hclimb
    · refine ⟨out, ?_⟩
      obtain rfl : ⟨e, .ofCode rest (c.code.toList ++ out)⟩ = s := by simpa [hrun] using hclimb
      simp [Cursor.ofCode]

theorem product_taken_after_code_and_code_kept :
    (∃ d : Cursor.Before ⟨[⟨.name "x", 0, 1⟩, ⟨.operator .times, 1, 2⟩, ⟨.leftParen, 2, 3⟩,
        ⟨.name "y", 3, 4⟩, ⟨.operator .minus, 4, 5⟩, ⟨.name "z", 5, 6⟩, ⟨.rightParen, 6, 7⟩,
        ⟨.operator .plus, 7, 8⟩], #[.root]⟩,
      climb 2 _ = .ok d ∧ d.val.code.toList =
        [.root, .load "x", .load "y", .load "z", .binary .minus, .binary .times] ∧
      Stops 2 d.val.input ∧ ∃ (pre : List Spanned) (out : Code),
        d.val.code.toList = [.root] ++ out ∧ Climbed 2 pre out) ∧
    ∃ s : Stop, climb 2 ⟨[⟨.name "x", 0, 1⟩, ⟨.operator .times, 1, 2⟩], #[.root]⟩ = .error s ∧
      ∃ out, s.cursor.code.toList = [.root] ++ out := by
  refine ⟨?_, ?_⟩
  · have h : (climb 2 ⟨[⟨.name "x", 0, 1⟩, ⟨.operator .times, 1, 2⟩, ⟨.leftParen, 2, 3⟩,
        ⟨.name "y", 3, 4⟩, ⟨.operator .minus, 4, 5⟩, ⟨.name "z", 5, 6⟩, ⟨.rightParen, 6, 7⟩,
        ⟨.operator .plus, 7, 8⟩], #[.root]⟩).map (·.val.code.toList) =
        .ok [.root, .load "x", .load "y", .load "z", .binary .minus, .binary .times] := by
      decide +kernel
    obtain ⟨d, hd, hcode⟩ := exists_of_map_eq_ok h
    obtain ⟨hstops, pre, out, -, hout, hclimbed⟩ := (climb_takes_phrase_and_keeps_code 2 _).1 d hd
    exact ⟨d, hd, hcode, hstops, pre, out, hout, hclimbed⟩
  · cases h : climb 2 ⟨[⟨.name "x", 0, 1⟩, ⟨.operator .times, 1, 2⟩], #[.root]⟩ with
    | error s => exact ⟨s, rfl, (climb_takes_phrase_and_keeps_code 2 _).2 s h⟩
    | ok d =>
      have hstop : ¬ (climb 2 ⟨[⟨.name "x", 0, 1⟩, ⟨.operator .times, 1, 2⟩],
          #[.root]⟩).isOk = true := by decide +kernel
      simp [h, Except.isOk, Except.toBool] at hstop

end Reckon
