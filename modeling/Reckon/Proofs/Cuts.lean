import Reckon.Proofs.Tiling
import Reckon.Proofs.Viable

/-! Lines in pieces. Where no token lies across a place, the text before it and the text after
it are scanned as if each stood alone; blank space is such a place on both of its sides. So
blank space between two items moves what follows and changes nothing else. -/

set_option autoImplicit false

namespace Reckon

def Spanned.shift (n : Nat) (t : Spanned) : Spanned := ⟨t.token, t.start + n, t.stop + n⟩

def Unknown.shift (n : Nat) (u : Unknown) : Unknown := ⟨u.lexeme, u.column + n⟩

def Item.shift (n : Nat) : Item → Item
  | token t => token (t.shift n)
  | unknown u => unknown (u.shift n)

theorem Item.token?_eq_some_iff {i : Item} {t : Spanned} : i.token? = some t ↔ i = token t := by
  cases i <;> simp [token?]

def HeadsIn (cs ds : List Char) : Prop := ∀ v, IsLexeme v → v <+: cs → v <+: ds

theorem headsIn_append (cs ds : List Char) : HeadsIn cs (cs ++ ds) :=
  fun _ _ hv => hv.trans (List.prefix_append cs ds)

theorem Longest.of_headsIn {cs ds w : List Char} (h : Longest ds w) (hw : w <+: cs)
    (hcs : HeadsIn cs ds) : Longest cs w where
  lexeme := h.lexeme
  isHead := hw
  greatest v hv hlex := h.greatest v (hcs v hlex hv) hlex

theorem Longest.of_append {cs ds w : List Char} (h : Longest (cs ++ ds) w)
    (hle : w.length ≤ cs.length) : Longest cs w :=
  h.of_headsIn (List.prefix_of_prefix_length_le h.isHead (List.prefix_append cs ds) hle)
    (headsIn_append cs ds)

theorem IsLexeme.isSkipped_eq_false {v : List Char} (h : IsLexeme v) {c : Char} (hc : c ∈ v) :
    Scan.isSkipped c = false := by
  obtain ⟨t, ht⟩ := isLexeme_iff.1 h
  exact ht.isSkipped_eq_false hc

/-- No token lies across the place, so what stands before it and what follows are munched apart. -/
theorem Munched.split {column place : Nat} {cs ds : List Char} {items : List Item}
    (h : Munched column (cs ++ ds) items) (hplace : column + cs.length = place)
    (hcut : ∀ t, .token t ∈ items → ¬ (t.start < place ∧ place < t.stop)) :
    ∃ first second, items = first ++ second ∧ Munched column cs first ∧
      Munched place ds second := by
  generalize htext : cs ++ ds = text at h
  induction h generalizing cs with
  | done column =>
    obtain ⟨rfl, rfl⟩ := List.append_eq_nil_iff.1 htext
    exact ⟨[], [], rfl, .done _, .done _⟩
  | @skip column c rest items hc h ih =>
    cases cs with
    | nil =>
      subst htext hplace
      exact ⟨[], items, rfl, .done _, .skip hc h⟩
    | cons d cs =>
      obtain ⟨rfl, rfl⟩ := List.cons.inj htext
      rw [List.length_cons] at hplace
      obtain ⟨first, second, hitems, hfirst, hsecond⟩ := ih (by omega) hcut rfl
      exact ⟨first, second, hitems, .skip hc hfirst, hsecond⟩
  | @token column w rest t items hw ht h ih =>
    cases cs with
    | nil =>
      subst hplace
      rw [List.nil_append] at htext
      exact ⟨[], _, rfl, .done _, htext ▸ .token hw ht h⟩
    | cons d cs =>
      have hle : column + w.length ≤ place := by
        have hnot := hcut _ (List.mem_cons_self)
        have hpos : column < place := by
          rw [← hplace, List.length_cons]
          omega
        exact Nat.le_of_not_lt fun hlt => hnot ⟨hpos, hlt⟩
      rw [← htext] at hw
      have hlongest : Longest (d :: cs) w := hw.of_append (by omega)
      obtain ⟨more, hmore⟩ := hlongest.isHead
      rw [← hmore, List.append_assoc] at htext
      rw [← hmore, List.length_append] at hplace
      obtain ⟨first, second, hitems, hfirst, hsecond⟩ := ih (by omega)
        (fun u hu => hcut u (List.mem_cons_of_mem _ hu)) (List.append_cancel_left htext)
      refine ⟨.token ⟨t, column, column + w.length⟩ :: first, second,
        by rw [hitems, List.cons_append], ?_, hsecond⟩
      rw [← hmore] at hlongest ⊢
      exact .token hlongest ht hfirst
  | @unknown column c rest items hs hc h ih =>
    cases cs with
    | nil =>
      subst htext hplace
      exact ⟨[], _, rfl, .done _, .unknown hs hc h⟩
    | cons d cs =>
      obtain ⟨rfl, rfl⟩ := List.cons.inj htext
      rw [List.length_cons] at hplace
      obtain ⟨first, second, hitems, hfirst, hsecond⟩ := ih (by omega)
        (fun u hu => hcut u (List.mem_cons_of_mem _ hu)) rfl
      refine ⟨.unknown ⟨d, column⟩ :: first, second, by rw [hitems, List.cons_append],
        .unknown hs ?_ hfirst, hsecond⟩
      exact fun v hv hlex => hc v (headsIn_append (d :: cs) ds v hlex hv) hlex

namespace Scan

theorem mem_words {line : List Char} {t : Spanned} : t ∈ words line ↔ .token t ∈ items line := by
  simp [words, Item.token?_eq_some_iff]

theorem itemsFrom_shift (n column covered : Nat) (cs : List Char) :
    itemsFrom (column + n) covered cs = (itemsFrom column covered cs).map (Item.shift n) := by
  induction cs generalizing column covered with
  | nil => rfl
  | cons c cs ih =>
    have hnext : ∀ k, itemsFrom (column + n + 1) k cs =
        (itemsFrom (column + 1) k cs).map (Item.shift n) := by
      intro k
      rw [← ih, Nat.add_right_comm]
    cases covered with
    | succ covered => rw [itemsFrom, itemsFrom, hnext]
    | zero =>
      rw [itemsFrom, itemsFrom]
      split
      · exact hnext 0
      · split
        · rename_i t k hfirst
          rw [hnext, List.map_cons, Item.shift, Spanned.shift, Nat.add_right_comm]
        · rw [hnext]
          rfl

def Uncut (line : List Char) (place : Nat) : Prop :=
  ∀ t ∈ words line, ¬ (t.start < place ∧ place < t.stop)

instance (line : List Char) (place : Nat) : Decidable (Uncut line place) :=
  inferInstanceAs (Decidable (∀ t ∈ words line, _))

theorem items_append {s t : List Char} (h : Uncut (s ++ t) s.length) :
    items (s ++ t) = items s ++ (items t).map (Item.shift s.length) := by
  obtain ⟨first, second, hitems, hfirst, hsecond⟩ :=
    (munched_itemsFrom 0 (s ++ t)).split (Nat.zero_add _) fun u hu => h u (mem_words.2 hu)
  rw [items, hitems, ← hfirst.itemsFrom_eq, ← hsecond.itemsFrom_eq]
  rw [show itemsFrom s.length 0 t = itemsFrom (0 + s.length) 0 t by rw [Nat.zero_add],
    itemsFrom_shift]
  rfl

theorem spells_of_mem_words {line : List Char} {t : Spanned} (h : t ∈ words line) :
    Spells ((line.drop t.start).take (t.stop - t.start)) t.token := by
  obtain ⟨pieces, hpieces⟩ := (munched_itemsFrom 0 line).exists_laid
    (show line.drop 0 = line from rfl) (Nat.zero_le _)
  have hitem : .token t ∈ pieces.filterMap Piece.item? := by
    rw [hpieces.items_eq]
    exact mem_words.1 h
  obtain ⟨p, hp, hitem⟩ := List.mem_filterMap.1 hitem
  cases p with
  | item i =>
    cases hitem
    exact hpieces.fits _ hp
  | blank start stop => cases hitem

theorem isSkipped_of_mem_words {text : List Char} {t : Spanned} (h : t ∈ words text) {i : Nat}
    (hi : t.start ≤ i ∧ i < t.stop) {c : Char} (hc : text[i]? = some c) :
    isSkipped c = false := by
  refine (spells_of_mem_words h).isSkipped_eq_false (List.mem_of_getElem? (i := i - t.start) ?_)
  rw [List.getElem?_take, if_pos (by omega), List.getElem?_drop, ← hc]
  congr 1
  omega

theorem uncut_of_isSkipped {text : List Char} {place i : Nat} {c : Char}
    (hi : i = place ∨ i + 1 = place) (hc : text[i]? = some c) (hs : isSkipped c = true) :
    Uncut text place := by
  intro t ht hcross
  have hnot := isSkipped_of_mem_words ht (i := i) (by omega) hc
  rw [hs] at hnot
  cases hnot

theorem items_of_isSkipped {w : List Char} (h : ∀ c ∈ w, c = ' ' ∨ c = '\t') : items w = [] := by
  have hall : ∀ column, itemsFrom column 0 w = [] := by
    induction w with
    | nil => exact fun _ => rfl
    | cons c w ih =>
      obtain ⟨hc, hw⟩ := List.forall_mem_cons.1 h
      intro column
      rw [itemsFrom_skip (isSkipped_iff.2 hc), ih hw]
  exact hall 0

theorem items_append_blank {s w t : List Char} (hne : w ≠ []) (hw : ∀ c ∈ w, c = ' ' ∨ c = '\t') :
    items (s ++ w ++ t) = items s ++ (items t).map (Item.shift (s.length + w.length)) := by
  have hbefore : Uncut (s ++ w) s.length := by
    refine uncut_of_isSkipped (.inl rfl) (c := w.head hne) ?_ ?_
    · rw [List.getElem?_append_right (Nat.le_refl _), Nat.sub_self, ← List.head?_eq_getElem?,
        List.head?_eq_some_head]
    · exact isSkipped_iff.2 (hw _ (List.head_mem hne))
  have hafter : Uncut (s ++ w ++ t) (s ++ w).length := by
    have hpos := List.length_pos_of_ne_nil hne
    refine uncut_of_isSkipped (i := (s ++ w).length - 1) (.inr ?_) (c := w.getLast hne) ?_ ?_
    · rw [List.length_append]
      omega
    · rw [List.getElem?_append_left (by rw [List.length_append]; omega),
        ← List.getLast?_eq_getElem?, List.getLast?_append_of_ne_nil s hne,
        List.getLast?_eq_some_getLast]
    · exact isSkipped_iff.2 (hw _ (List.getLast_mem hne))
  rw [items_append hafter, items_append hbefore, items_of_isSkipped hw, List.length_append]
  simp

/-- The items of a line are those of a first text and, from `offset` on, those of a second. -/
structure Joins (line s t : List Char) (offset : Nat) : Prop where
  items_eq : items line = items s ++ (items t).map (Item.shift offset)
  words_eq : words line = words s ++ (words t).map (Spanned.shift offset)
  unknowns_eq : unknowns line = unknowns s ++ (unknowns t).map (Unknown.shift offset)

theorem filterMap_shift {α : Type} {f : Item → Option α} {g : α → α} {n : Nat}
    (hf : ∀ i : Item, f (i.shift n) = (f i).map g) (is : List Item) :
    (is.map (Item.shift n)).filterMap f = (is.filterMap f).map g := by
  rw [List.filterMap_map, List.map_filterMap]
  exact List.filterMap_congr fun i _ => hf i

theorem joins_of_items_eq {line s t : List Char} {offset : Nat}
    (h : items line = items s ++ (items t).map (Item.shift offset)) : Joins line s t offset where
  items_eq := h
  words_eq := by
    rw [words, h, List.filterMap_append, filterMap_shift fun i => by cases i <;> rfl]
    rfl
  unknowns_eq := by
    rw [unknowns, h, List.filterMap_append, filterMap_shift fun i => by cases i <;> rfl]
    rfl

end Scan

def SyntaxError.token? : SyntaxError → Option Token
  | unexpected token _ => some token
  | endOfInput => none

/-- What is to be said of tokens up to the end of a line, their places left out. -/
inductive Verdict (ws : List Token) : Except (Option Token) Statement → Prop
  | sentence (d : Sentence) (hd : d.tokens = ws) : Verdict ws (.ok d.statement)
  | wrong (i : Nat) (t : Token) (ht : ws[i]? = some t) (hv : Viable (ws.take i))
      (hn : ¬ Viable (ws.take (i + 1))) : Verdict ws (.error (some t))
  | short (hv : Viable ws) (hn : ¬ ∃ d : Sentence, d.tokens = ws) : Verdict ws (.error none)

theorem Verdict.unique {ws : List Token} {r r' : Except (Option Token) Statement}
    (h : Verdict ws r) (h' : Verdict ws r') : r = r' := by
  have hviable : ∀ d : Sentence, d.tokens = ws → Viable ws :=
    fun d hd => ⟨[], d, by rw [hd, List.append_nil]⟩
  cases h with
  | sentence d hd =>
    cases h' with
    | sentence d' hd' => rw [Sentence.tokens_injective (hd.trans hd'.symm)]
    | wrong i t ht hv hn => exact (hn (viable_take (hviable d hd) _)).elim
    | short hv hn => exact (hn ⟨d, hd⟩).elim
  | wrong i t ht hv hn =>
    cases h' with
    | sentence d hd => exact (hn (viable_take (hviable d hd) _)).elim
    | wrong j u hu hv' hn' =>
      obtain rfl := index_unique hv hn hv' hn'
      rw [ht] at hu
      cases hu
      rfl
    | short hv' _ => exact (hn (viable_take hv' _)).elim
  | short hv hn =>
    cases h' with
    | sentence d hd => exact (hn ⟨d, hd⟩).elim
    | wrong i t ht hv' hn' => exact (hn' (viable_take hv _)).elim
    | short => rfl

theorem Statement.verdict_ofLine (line : List Char) :
    Verdict ((Scan.words line).map Spanned.token)
      ((ofLine line).mapError SyntaxError.token?) := by
  have hline : ofLine line =
      (read (Scan.words line ++ [⟨.endOfInput, line.length, line.length⟩])).1 := rfl
  rcases @read_line_cases (Scan.words line) ⟨.endOfInput, line.length, line.length⟩ rfl
    (fun t ht => Scan.words_ne_endOfInput line ht) with
    ⟨d, hd, hr⟩ | ⟨i, t, ht, hv, hn, hr⟩ | ⟨hv, hn, hr⟩
  · rw [hline, hr]
    exact .sentence d hd
  · rw [hline, hr]
    exact .wrong i t.token (by rw [List.getElem?_map, ht]; rfl) hv hn
  · rw [hline, hr]
    exact .short hv hn

/-- Two lines with the same tokens, unknown characters and statement, or with an error at the
same token; only the places may differ. -/
structure SameButPlaces (line line' : List Char) : Prop where
  tokens_eq : (Scan.words line).map Spanned.token = (Scan.words line').map Spanned.token
  lexemes_eq : (Scan.unknowns line).map Unknown.lexeme = (Scan.unknowns line').map Unknown.lexeme
  statement_eq : (Statement.ofLine line).mapError SyntaxError.token? =
    (Statement.ofLine line').mapError SyntaxError.token?

theorem sameButPlaces_of_joins {line line' s t : List Char} {offset offset' : Nat}
    (h : Scan.Joins line s t offset) (h' : Scan.Joins line' s t offset') :
    SameButPlaces line line' := by
  have htokens : (Scan.words line).map Spanned.token = (Scan.words line').map Spanned.token := by
    rw [h.words_eq, h'.words_eq, List.map_append, List.map_append, List.map_map, List.map_map]
    rfl
  refine ⟨htokens, ?_, ?_⟩
  · rw [h.unknowns_eq, h'.unknowns_eq, List.map_append, List.map_append, List.map_map,
      List.map_map]
    rfl
  · have hverdict := Statement.verdict_ofLine line
    rw [htokens] at hverdict
    exact hverdict.unique (Statement.verdict_ofLine line')

/-- Text, blank space and text again are scanned as the two texts are, and so are two texts side
by side where no token lies across the place between them. Blank space that is put in at such a
place changes no token, no unknown character and no statement. -/
theorem Scan.joins_and_sameButPlaces :
    (∀ s w t : List Char, w ≠ [] → (∀ c ∈ w, c = ' ' ∨ c = '\t') →
      Joins (s ++ w ++ t) s t (s.length + w.length)) ∧
    (∀ s t : List Char, Uncut (s ++ t) s.length → Joins (s ++ t) s t s.length) ∧
    ∀ s w t : List Char, (∀ c ∈ w, c = ' ' ∨ c = '\t') → Uncut (s ++ t) s.length →
      SameButPlaces (s ++ w ++ t) (s ++ t) := by
  have hblank : ∀ s w t : List Char, w ≠ [] → (∀ c ∈ w, c = ' ' ∨ c = '\t') →
      Joins (s ++ w ++ t) s t (s.length + w.length) :=
    fun s w t hne hw => joins_of_items_eq (items_append_blank hne hw)
  have hside : ∀ s t : List Char, Uncut (s ++ t) s.length → Joins (s ++ t) s t s.length :=
    fun s t h => joins_of_items_eq (items_append h)
  refine ⟨hblank, hside, fun s w t hw h => ?_⟩
  by_cases hne : w = []
  · rw [hne, List.append_nil]
    exact sameButPlaces_of_joins (hside s t h) (hside s t h)
  · exact sameButPlaces_of_joins (hblank s w t hne hw) (hside s t h)

theorem joins_after_numeral_before_minus :
    Scan.Uncut ("é1.5".toList ++ "-22.7".toList) 4 ∧
      Scan.Joins ("é1.5".toList ++ "-22.7".toList) "é1.5".toList "-22.7".toList 4 ∧
      Scan.Joins ("é1.5".toList ++ " \t".toList ++ "-22.7".toList) "é1.5".toList "-22.7".toList 6 ∧
      SameButPlaces ("é1.5".toList ++ " \t".toList ++ "-22.7".toList)
        ("é1.5".toList ++ "-22.7".toList) := by
  have huncut : Scan.Uncut ("é1.5".toList ++ "-22.7".toList) 4 := by decide +kernel
  have hblank : ∀ c ∈ " \t".toList, c = ' ' ∨ c = '\t' := by simp
  refine ⟨huncut, Scan.joins_and_sameButPlaces.2.1 _ _ huncut, ?_, ?_⟩
  · exact Scan.joins_and_sameButPlaces.1 _ _ _ (by decide) hblank
  · exact Scan.joins_and_sameButPlaces.2.2 _ _ _ hblank huncut

end Reckon
