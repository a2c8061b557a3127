import Reckon.Proofs.Strays
import Reckon.Token.Scanner

/-! Draining a scanner. Its answers are the tokens of the line in turn, each with the unknown
characters before it noted. A token that is looked at in advance is neither lost nor given twice,
and a scanner drained anywhere on its way has noted the same characters in the end. -/

set_option autoImplicit false

namespace Reckon

def Spanned.unknownsBefore (t : Spanned) (us : List Unknown) : List Unknown :=
  us.filter fun u => u.column < t.start

namespace Scanner

theorem drain_of_none {s : Scanner} (h : s.next.1 = none) : s.drain = ([], s.next.2) := by
  rw [drain]
  split <;> simp_all

theorem drain_of_some {s : Scanner} {t : Spanned} (h : s.next.1 = some t) :
    s.drain = (t :: s.next.2.drain.1, s.next.2.drain.2) := by
  rw [drain]
  split <;> simp_all [Prod.map]

theorem drain_of_next {s s' : Scanner} {t : Spanned} (h : s.next = (some t, s')) :
    s.drain = (t :: s'.drain.1, s'.drain.2) := by
  have hdrain := drain_of_some (congrArg Prod.fst h)
  rwa [h] at hdrain

theorem drain_of_finished {s : Scanner} (h : s.finished = true) : s.drain = ([], s) := by
  have hnext : s.next = (none, s) := by simp [next, h]
  simp [drain_of_none, hnext]

theorem drain_fst (s : Scanner) : s.drain.1 = s.next.1.toList ++ s.next.2.drain.1 := by
  cases h : s.next.1 with
  | none => simp [drain_of_none h, drain_of_finished (finished_of_next h)]
  | some t => simp [drain_of_some h]

@[simp] theorem drain_next (s : Scanner) : s.next.2.drain.2 = s.drain.2 := by
  cases h : s.next.1 with
  | none => simp [drain_of_none h, drain_of_finished (finished_of_next h)]
  | some t => simp [drain_of_some h]

/-- Wherever a scanner is on its way through a line, draining completes the same work. -/
theorem drain_of_mem_steps {s : Scanner} {k : Nat} {r : Option Spanned × Scanner}
    (h : r ∈ s.steps k) : r.2.drain.2 = s.drain.2 := by
  induction k generalizing s with
  | zero => simp [steps] at h
  | succ k ih =>
    rcases List.mem_cons.1 h with rfl | h
    · exact s.drain_next
    · exact (ih h).trans s.drain_next

/-- A scanner on its way through a line of `n` characters, with `items` still to come. What it has
noted stands before them, in the order of the line. -/
structure Amid (n : Nat) (items : List Item) (s : Scanner) : Prop where
  unfinished : s.finished = false
  munched : Munched s.column s.rest items
  length : s.column + s.rest.length = n
  sorted : (s.unknowns.map Item.unknown ++ items).Pairwise fun i j => i.start < j.start
  bound : ∀ i ∈ s.unknowns.map Item.unknown ++ items, i.start < n

namespace Amid

theorem start (line : List Char) : Amid line.length (Scan.items line) (.start line) := by
  obtain ⟨pieces, htiles, hitems⟩ := Scan.exists_tiles line
  refine ⟨rfl, munched_itemsFrom 0 line, Nat.zero_add _, ?_, ?_⟩
  · simpa [hitems, Scanner.start] using htiles.pairwise_items
  · intro i hi
    obtain ⟨p, hp, hpi⟩ := List.mem_filterMap.1 (hitems ▸ hi)
    cases p with
    | item j =>
      obtain rfl : j = i := Option.some.inj hpi
      exact (htiles.cover _).2 ⟨_, hp, Nat.le_refl _, htiles.nonempty _ hp⟩
    | blank => cases hpi

variable {n : Nat} {items : List Item} {s : Scanner}

theorem next_cases (h : Amid n items s) :
    (∃ us : List Unknown, items = us.map Item.unknown ∧
      s.next = (some ⟨.endOfInput, n, n⟩, ⟨[], n, s.unknowns ++ us, true⟩)) ∨
    ∃ (us : List Unknown) (t : Spanned) (more : List Item) (s' : Scanner),
      items = us.map Item.unknown ++ .token t :: more ∧ s.next = (some t, s') ∧
      s'.unknowns = s.unknowns ++ us ∧ Amid n more s' := by
  rw [next_of_not_finished h.unfinished]
  rcases h.munched.seek_cases h.length s.unknowns with
    ⟨us, hitems, hseek⟩ | ⟨us, t, more, rest, hitems, hseek, hmore, hrest⟩
  · exact .inl ⟨us, hitems, by rw [hseek]⟩
  · refine .inr ⟨us, t, more, _, hitems, by rw [hseek], rfl, rfl, hmore, hrest, ?_, ?_⟩
    all_goals
      have hsub : ((s.unknowns ++ us).map Item.unknown ++ more).Sublist
          (s.unknowns.map Item.unknown ++ items) := by simp [hitems]
    · exact h.sorted.sublist hsub
    · exact fun i hi => h.bound i (hsub.subset hi)

theorem drain (h : Amid n items s) :
    s.drain = (items.filterMap Item.token? ++ [⟨.endOfInput, n, n⟩],
      ⟨[], n, s.unknowns ++ items.filterMap Item.unknown?, true⟩) := by
  -- By the number of tokens to come, of which a call takes one.
  induction hm : (items.filterMap Item.token?).length generalizing items s with
  | zero =>
    rcases h.next_cases with ⟨us, rfl, hnext⟩ | ⟨us, t, more, s', rfl, -, -, -⟩
    · rw [drain_of_next hnext, drain_of_finished (by rfl), token?_map_unknown, unknown?_map_unknown]
      rfl
    · simp [Item.token?] at hm
  | succ m ih =>
    rcases h.next_cases with ⟨us, rfl, -⟩ | ⟨us, t, more, s', rfl, hnext, hnoted, h'⟩
    · rw [token?_map_unknown] at hm
      cases hm
    · rw [List.filterMap_append, token?_map_unknown] at hm
      rw [drain_of_next hnext, ih h' (Nat.succ.inj hm), hnoted, List.filterMap_append,
        List.filterMap_append, token?_map_unknown, unknown?_map_unknown, List.append_assoc]
      rfl

theorem unknownsBefore_eq {t : Spanned} {us : List Unknown} {more : List Item}
    (h : (us.map Item.unknown ++ .token t :: more).Pairwise fun i j => i.start < j.start) :
    t.unknownsBefore (us ++ more.filterMap Item.unknown?) = us := by
  obtain ⟨-, hmore, hus⟩ := List.pairwise_append.1 h
  rw [Spanned.unknownsBefore, List.filter_append, List.filter_eq_self.2,
    List.filter_eq_nil_iff.2, List.append_nil]
  · intro u hu
    obtain ⟨i, hi, hiu⟩ := List.mem_filterMap.1 hu
    obtain rfl := Item.unknown?_eq_some_iff.1 hiu
    have hlt : t.start < u.column := (List.pairwise_cons.1 hmore).1 _ hi
    simp only [decide_eq_true_eq]
    omega
  · intro u hu
    have hlt : u.column < t.start := hus _ (List.mem_map_of_mem hu) _ List.mem_cons_self
    simpa using hlt

theorem steps (h : Amid n items s) (k : Nat) :
    (s.steps k).map (fun r => (r.1, r.2.unknowns)) =
      (s.drain.1.map (fun t : Spanned => (some t, t.unknownsBefore s.drain.2.unknowns)) ++
        List.replicate k (none, s.drain.2.unknowns)).take k := by
  induction k generalizing items s with
  | zero => rfl
  | succ k ih =>
    rcases h.next_cases with ⟨us, rfl, hnext⟩ | ⟨us, t, more, s', rfl, hnext, hnoted, h'⟩
    · have hdrain : s.drain = ([⟨.endOfInput, n, n⟩], ⟨[], n, s.unknowns ++ us, true⟩) := by
        rw [drain_of_next hnext, drain_of_finished (by rfl)]
      have hall : Spanned.unknownsBefore ⟨.endOfInput, n, n⟩ (s.unknowns ++ us) =
          s.unknowns ++ us := by
        refine List.filter_eq_self.2 fun u hu => ?_
        have hlt : u.column < n := h.bound (.unknown u) (by simpa using hu)
        simpa using hlt
      rw [Scanner.steps, hnext, Scanner.steps_of_finished (by rfl), hdrain]
      generalize s.unknowns ++ us = noted at hall ⊢
      simp [hall]
    · have hdrain := drain_of_next hnext
      have hnoted' : t.unknownsBefore s'.drain.2.unknowns = s'.unknowns := by
        rw [h'.drain]
        refine unknownsBefore_eq ?_
        simpa [hnoted] using h.sorted
      rw [Scanner.steps, hnext, hdrain]
      simp [ih h', hnoted', List.take_append, List.take_replicate]
      omega

end Amid
end Scanner

namespace Lookahead

def ahead (l : Lookahead) : List Spanned := l.seen.join.toList ++ l.scanner.drain.1

def final (l : Lookahead) : Scanner := l.scanner.drain.2

theorem next_fst (l : Lookahead) : l.next.1 = l.ahead.head? := by
  cases hs : l.seen with
  | none =>
    rw [ahead, Scanner.drain_fst]
    cases ht : l.scanner.next.1 with
    | none => simp [next, hs, ht, Scanner.drain_of_finished (Scanner.finished_of_next ht)]
    | some t => simp [next, hs, ht]
  | some answer => cases answer with
    | none => simp [next, ahead, hs, Scanner.drain_of_finished (l.ended hs)]
    | some t => simp [next, ahead, hs]

@[simp] theorem ahead_next (l : Lookahead) : l.next.2.ahead = l.ahead.tail := by
  cases hs : l.seen with
  | none =>
    rw [ahead, ahead, Scanner.drain_fst l.scanner]
    cases ht : l.scanner.next.1 with
    | none => simp [next, hs, Scanner.drain_of_finished (Scanner.finished_of_next ht)]
    | some t => simp [next, hs]
  | some answer => cases answer with
    | none => simp [next, ahead, hs, Scanner.drain_of_finished (l.ended hs)]
    | some t => simp [next, ahead, hs]

@[simp] theorem final_next (l : Lookahead) : l.next.2.final = l.final := by
  cases hs : l.seen <;> simp [next, final, hs]

@[simp] theorem ahead_peek (l : Lookahead) : l.peek.2.ahead = l.ahead := by
  cases hs : l.seen with
  | none =>
    rw [ahead, ahead, Scanner.drain_fst l.scanner]
    simp [peek, hs]
  | some answer => simp [peek, hs]

@[simp] theorem final_peek (l : Lookahead) : l.peek.2.final = l.final := by
  cases hs : l.seen <;> simp [peek, final, hs]

theorem peek_fst (l : Lookahead) : l.peek.1 = l.ahead.head? := by
  rw [← next_peek, next_fst, ahead_peek]

end Lookahead
end Reckon
