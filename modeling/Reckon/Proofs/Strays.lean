import Reckon.Proofs.Cuts

/-! Stray characters: not blank space, and under no token. They are just the characters that a
scan sets aside, and a space in the place of any of them leaves the tokens, their places and the
statement as they were. -/

set_option autoImplicit false

namespace Reckon

def Spanned.covers (t : Spanned) (i : Nat) : Bool := decide (t.start ≤ i ∧ i < t.stop)

theorem Item.unknown?_eq_some_iff {i : Item} {u : Unknown} :
    i.unknown? = some u ↔ i = unknown u := by
  cases i <;> simp [unknown?]

theorem Munched.le_start {column : Nat} {cs : List Char} {items : List Item}
    (h : Munched column cs items) {i : Item} (hi : i ∈ items) : column ≤ i.start := by
  induction h with
  | done column => simp at hi
  | skip hc h ih => exact Nat.le_of_succ_le (ih hi)
  | token hw ht h ih =>
    rcases List.mem_cons.1 hi with rfl | hi
    · exact Nat.le_refl _
    · exact Nat.le_trans (Nat.le_add_right _ _) (ih hi)
  | unknown hs hc h ih =>
    rcases List.mem_cons.1 hi with rfl | hi
    · exact Nat.le_refl _
    · exact Nat.le_of_succ_le (ih hi)

theorem Munched.not_isLexeme {line : List Char} {column : Nat} {cs : List Char}
    {items : List Item} (h : Munched column cs items) (hcs : line.drop column = cs) {u : Unknown}
    (hu : .unknown u ∈ items) {v : List Char} (hv : v <+: line.drop u.column) : ¬ IsLexeme v := by
  induction h with
  | done column => simp at hu
  | skip hc h ih => exact ih (by rw [← List.tail_drop, hcs, List.tail_cons]) hu
  | token hw ht h ih =>
    exact ih (by rw [← List.drop_drop, hcs, List.drop_left]) (by simpa using hu)
  | unknown hs hc h ih =>
    rcases List.mem_cons.1 hu with he | hu
    · cases he
      exact hc v (hcs ▸ hv)
    · exact ih (by rw [← List.tail_drop, hcs, List.tail_cons]) hu

namespace Scan

/-- The character, unless it is blank space or one of the tokens covers its place. -/
def stray? (ts : List Spanned) (p : Char × Nat) : Option Unknown :=
  if isSkipped p.1 || ts.any (·.covers p.2) then none else some ⟨p.1, p.2⟩

def strays (line : List Char) : List Unknown := line.zipIdx.filterMap (stray? (words line))

theorem stray?_of_isSkipped {c : Char} (hc : isSkipped c = true) (ts : List Spanned) (i : Nat) :
    stray? ts (c, i) = none := by simp [stray?, hc]

theorem stray?_of_covers {ts : List Spanned} {t : Spanned} (ht : t ∈ ts) {i : Nat}
    (hi : t.start ≤ i ∧ i < t.stop) (c : Char) : stray? ts (c, i) = none := by
  have hany : ts.any (·.covers i) = true := List.any_eq_true.2 ⟨t, ht, decide_eq_true hi⟩
  simp [stray?, hany]

theorem stray?_eq_some {c : Char} (hc : isSkipped c = false) {ts : List Spanned} {i : Nat}
    (hi : ∀ t ∈ ts, ¬ (t.start ≤ i ∧ i < t.stop)) : stray? ts (c, i) = some ⟨c, i⟩ := by
  have hany : ts.any (·.covers i) = false :=
    List.any_eq_false.2 fun t ht => by simpa [Spanned.covers] using hi t ht
  simp [stray?, hc, hany]

end Scan

/-- The tokens found earlier end before the text that is left, so they cover nothing in it. -/
theorem Munched.filterMap_stray? {column : Nat} {cs : List Char} {items : List Item}
    (h : Munched column cs items) (before : List Spanned) (hb : ∀ t ∈ before, t.stop ≤ column) :
    (cs.zipIdx column).filterMap (Scan.stray? (before ++ items.filterMap Item.token?)) =
      items.filterMap Item.unknown? := by
  induction h generalizing before with
  | done column => rfl
  | @skip column c cs items hc h ih =>
    rw [List.zipIdx_cons, List.filterMap_cons_none
      (Scan.stray?_of_isSkipped (Scan.isSkipped_iff.2 hc) _ _)]
    exact ih before fun t ht => Nat.le_succ_of_le (hb t ht)
  | @token column w rest t items hw ht h ih =>
    have hcovered : (w.zipIdx column).filterMap (Scan.stray?
        (before ++ ⟨t, column, column + w.length⟩ :: items.filterMap Item.token?)) = [] := by
      refine List.filterMap_eq_nil_iff.2 fun p hp => ?_
      obtain ⟨hge, hlt, -⟩ := List.mem_zipIdx hp
      exact Scan.stray?_of_covers (t := ⟨t, column, column + w.length⟩) (by simp) ⟨hge, by omega⟩ _
    have hrest := ih (before ++ [⟨t, column, column + w.length⟩]) (by
      intro u hu
      rcases List.mem_append.1 hu with hu | hu
      · exact Nat.le_trans (hb u hu) (Nat.le_add_right _ _)
      · rw [List.mem_singleton.1 hu])
    have htokens : (Item.token ⟨t, column, column + w.length⟩ :: items).filterMap Item.token? =
        ⟨t, column, column + w.length⟩ :: items.filterMap Item.token? := rfl
    rw [List.append_assoc, List.singleton_append] at hrest
    rw [htokens, List.zipIdx_append, List.filterMap_append, hcovered, hrest]
    rfl
  | @unknown column c cs items hs hc h ih =>
    have hfree : ∀ t ∈ before ++ items.filterMap Item.token?,
        ¬ (t.start ≤ column ∧ column < t.stop) := by
      intro t ht
      rcases List.mem_append.1 ht with ht | ht
      · have := hb t ht
        omega
      · obtain ⟨i, hi, hit⟩ := List.mem_filterMap.1 ht
        obtain rfl := Item.token?_eq_some_iff.1 hit
        have hle : column + 1 ≤ t.start := h.le_start hi
        omega
    have hhead := Scan.stray?_eq_some (Scan.isSkipped_of_ne hs.1 hs.2) hfree
    have htokens : (Item.unknown ⟨c, column⟩ :: items).filterMap Item.token? =
        items.filterMap Item.token? := rfl
    rw [htokens, List.zipIdx_cons, List.filterMap_cons_some hhead,
      ih before fun t ht => Nat.le_succ_of_le (hb t ht)]
    rfl

theorem Scan.unknowns_eq_strays (line : List Char) : unknowns line = strays line :=
  ((munched_itemsFrom 0 line).filterMap_stray? [] (by simp)).symm

namespace Scan

def blankedFrom (places : List Nat) (column : Nat) (cs : List Char) : List Char :=
  (cs.zipIdx column).map fun p => if p.2 ∈ places then ' ' else p.1

def blanked (places : List Nat) (line : List Char) : List Char := blankedFrom places 0 line

theorem blankedFrom_cons (places : List Nat) (column : Nat) (c : Char) (cs : List Char) :
    blankedFrom places column (c :: cs) =
      (if column ∈ places then ' ' else c) :: blankedFrom places (column + 1) cs := rfl

theorem blankedFrom_append (places : List Nat) (column : Nat) (cs ds : List Char) :
    blankedFrom places column (cs ++ ds) =
      blankedFrom places column cs ++ blankedFrom places (column + cs.length) ds := by
  rw [blankedFrom, List.zipIdx_append, List.map_append]
  rfl

@[simp] theorem length_blanked (places : List Nat) (line : List Char) :
    (blanked places line).length = line.length := by simp [blanked, blankedFrom]

theorem blankedFrom_of_notMem {places : List Nat} {column : Nat} {cs : List Char}
    (h : ∀ i, column ≤ i → i < column + cs.length → i ∉ places) :
    blankedFrom places column cs = cs := by
  induction cs generalizing column with
  | nil => rfl
  | cons c cs ih =>
    rw [List.length_cons] at h
    rw [blankedFrom_cons, if_neg (h column (Nat.le_refl _) (by omega)),
      ih fun i hi hlt => h i (by omega) (by omega)]

/-- A lexeme holds no blank space, so none comes from a space that is put in. -/
theorem headsIn_blankedFrom (places : List Nat) (column : Nat) (cs : List Char) :
    HeadsIn (blankedFrom places column cs) cs := by
  intro v hlex hv
  have hplain : ∀ c ∈ v, isSkipped c = false := fun c hc => hlex.isSkipped_eq_false hc
  clear hlex
  induction cs generalizing column v with
  | nil => exact hv
  | cons c cs ih =>
    cases v with
    | nil => exact List.nil_prefix
    | cons d v =>
      rw [blankedFrom_cons] at hv
      obtain ⟨hd, hv⟩ := List.cons_prefix_cons.1 hv
      obtain ⟨hd', hplain⟩ := List.forall_mem_cons.1 hplain
      refine List.cons_prefix_cons.2 ⟨?_, ih (column + 1) v hv hplain⟩
      by_cases hc : column ∈ places
      · rw [hd, if_pos hc] at hd'
        cases hd'
      · rwa [if_neg hc] at hd

end Scan

def Item.isKept (places : List Nat) : Item → Bool
  | token _ => true
  | unknown u => decide (u.column ∉ places)

theorem Munched.blanked {column : Nat} {cs : List Char} {items : List Item}
    (h : Munched column cs items) {places : List Nat}
    (hp : ∀ i ∈ places, column ≤ i → i < column + cs.length →
      ∃ u, .unknown u ∈ items ∧ u.column = i) :
    Munched column (Scan.blankedFrom places column cs) (items.filter (Item.isKept places)) := by
  induction h with
  | done column => exact .done column
  | @skip column c cs items hc h ih =>
    rw [List.length_cons] at hp
    rw [Scan.blankedFrom_cons]
    refine .skip ?_ (ih fun i hi hle hlt => hp i hi (by omega) (by omega))
    split
    · exact .inl rfl
    · exact hc
  | @token column w rest t items hw ht h ih =>
    rw [List.length_append] at hp
    have hfree : ∀ i, column ≤ i → i < column + w.length → i ∉ places := by
      intro i hle hlt hi
      obtain ⟨u, hu, rfl⟩ := hp i hi hle (by omega)
      have hafter : column + w.length ≤ u.column :=
        h.le_start (i := .unknown u) (by simpa using hu)
      omega
    have hheads := Scan.headsIn_blankedFrom places column (w ++ rest)
    rw [Scan.blankedFrom_append, Scan.blankedFrom_of_notMem hfree] at hheads ⊢
    rw [List.filter_cons_of_pos rfl]
    refine .token (hw.of_headsIn (List.prefix_append _ _) hheads) ht (ih fun i hi hle hlt => ?_)
    obtain ⟨u, hu, rfl⟩ := hp i hi (by omega) (by omega)
    exact ⟨u, by simpa using hu, rfl⟩
  | @unknown column c cs items hs hc h ih =>
    rw [List.length_cons] at hp
    have hrest := ih fun i hi hle hlt => by
      obtain ⟨u, hu, rfl⟩ := hp i hi (by omega) (by omega)
      rcases List.mem_cons.1 hu with he | hu
      · cases he
        exact (Nat.not_succ_le_self column hle).elim
      · exact ⟨u, hu, rfl⟩
    rw [Scan.blankedFrom_cons]
    by_cases hmem : column ∈ places
    · rw [if_pos hmem, List.filter_cons_of_neg (by simp [Item.isKept, hmem])]
      exact .skip (.inl rfl) hrest
    · rw [if_neg hmem, List.filter_cons_of_pos (by simp [Item.isKept, hmem])]
      refine .unknown hs (fun v hv hlex => hc v ?_ hlex) hrest
      have hheads := Scan.headsIn_blankedFrom places column (c :: cs) v hlex
      rw [Scan.blankedFrom_cons, if_neg hmem] at hheads
      exact hheads hv

namespace Scan

theorem mem_unknowns {line : List Char} {u : Unknown} :
    u ∈ unknowns line ↔ .unknown u ∈ items line := by
  simp [unknowns, Item.unknown?_eq_some_iff]

theorem items_blanked {line : List Char} {places : List Nat}
    (h : places ⊆ (unknowns line).map Unknown.column) :
    items (blanked places line) = (items line).filter (Item.isKept places) := by
  refine ((munched_itemsFrom 0 line).blanked fun i hi _ _ => ?_).itemsFrom_eq
  obtain ⟨u, hu, hcolumn⟩ := List.mem_map.1 (h hi)
  exact ⟨u, mem_unknowns.1 hu, hcolumn⟩

/-- A space in the place of any unknown characters of a line leaves every token where it was,
takes just those characters from the unknown ones, and changes nothing in what is read. -/
theorem tokens_blanked_and_ofLine_blanked (line : List Char) (places : List Nat)
    (h : places ⊆ (unknowns line).map Unknown.column) :
    tokens (blanked places line) = tokens line ∧
      unknowns (blanked places line) = (unknowns line).filter (fun u => u.column ∉ places) ∧
      Statement.ofLine (blanked places line) = Statement.ofLine line := by
  have hwords : words (blanked places line) = words line := by
    rw [words, items_blanked h, List.filterMap_filter]
    refine List.filterMap_congr fun i _ => ?_
    cases i with
    | token t => rfl
    | unknown u => exact ite_self _
  have htokens : tokens (blanked places line) = tokens line := by
    rw [tokens_eq, tokens_eq, hwords, length_blanked]
  refine ⟨htokens, ?_, by rw [Statement.ofLine, Statement.ofLine, htokens]⟩
  rw [unknowns, items_blanked h, List.filterMap_filter, unknowns, List.filter_filterMap]
  refine List.filterMap_congr fun i _ => ?_
  cases i with
  | token t => rfl
  | unknown u => rfl

theorem blanked_point_before_j :
    [3] ⊆ (unknowns "1+2.j?".toList).map Unknown.column ∧
      blanked [3] "1+2.j?".toList = "1+2 j?".toList ∧
      tokens "1+2 j?".toList = tokens "1+2.j?".toList ∧
      unknowns "1+2 j?".toList = [⟨'?', 5⟩] := by
  have hplaces : [3] ⊆ (unknowns "1+2.j?".toList).map Unknown.column := by decide +kernel
  have hline : blanked [3] "1+2.j?".toList = "1+2 j?".toList := by decide
  obtain ⟨htokens, hunknowns, -⟩ := tokens_blanked_and_ofLine_blanked _ _ hplaces
  rw [hline] at htokens hunknowns
  refine ⟨hplaces, hline, htokens, ?_⟩
  rw [hunknowns]
  decide +kernel

end Scan
end Reckon
