import Mathlib.Data.List.Chain
import Reckon.Proofs.Longest

/-! Every character of a line is accounted for. The tokens, the unknown characters and the runs
of blank space between them tile the line, and a scanner hands out the tokens in their order,
the end once, and then nothing more. -/

set_option autoImplicit false

namespace Reckon

def Item.start : Item → Nat
  | token t => t.start
  | unknown u => u.column

def Item.stop : Item → Nat
  | token t => t.stop
  | unknown u => u.column + 1

inductive Piece where
  | item (i : Item)
  | blank (start stop : Nat)
  deriving DecidableEq, Repr

namespace Piece

def start : Piece → Nat
  | item i => i.start
  | blank start _ => start

def stop : Piece → Nat
  | item i => i.stop
  | blank _ stop => stop

def item? : Piece → Option Item
  | item i => some i
  | blank _ _ => none

def isBlank (p : Piece) : Bool := p.item?.isNone

/-- The characters between the ends of the piece are those that it stands for. -/
def Fits (text : List Char) : Piece → Prop
  | item (.token t) => Spells ((text.drop t.start).take (t.stop - t.start)) t.token
  | item (.unknown u) => text[u.column]? = some u.lexeme
  | blank start stop =>
    ∀ i, start ≤ i → i < stop → text[i]? = some ' ' ∨ text[i]? = some '\t'

end Piece

/-- The pieces lie side by side from `start` to `stop`, none of them empty. -/
def Adjoin (stop : Nat) : Nat → List Piece → Prop
  | start, [] => start = stop
  | start, p :: ps => p.start = start ∧ p.start < p.stop ∧ Adjoin stop p.stop ps

/-- The pieces account for every character of the line exactly once. No run of blank space can
be made longer. -/
structure Tiles (line : List Char) (pieces : List Piece) : Prop where
  nonempty : ∀ p ∈ pieces, p.start < p.stop
  disjoint : pieces.Pairwise fun p q => p.stop ≤ q.start
  cover : ∀ i, i < line.length ↔ ∃ p ∈ pieces, p.start ≤ i ∧ i < p.stop
  fits : ∀ p ∈ pieces, p.Fits line
  alternate : pieces.IsChain fun p q => p.isBlank = true → q.isBlank = false

namespace Adjoin

theorem bounds {stop start : Nat} {pieces : List Piece} (h : Adjoin stop start pieces) :
    start ≤ stop ∧ ∀ p ∈ pieces, start ≤ p.start ∧ p.start < p.stop ∧ p.stop ≤ stop := by
  induction pieces generalizing start with
  | nil => exact ⟨Nat.le_of_eq h, by simp⟩
  | cons p ps ih =>
    obtain ⟨hstart, hlt, hps⟩ := h
    obtain ⟨hle, hall⟩ := ih hps
    refine ⟨by omega, fun q hq => ?_⟩
    rcases List.mem_cons.1 hq with rfl | hq
    · omega
    · have := hall q hq
      omega

theorem pairwise {stop start : Nat} {pieces : List Piece} (h : Adjoin stop start pieces) :
    pieces.Pairwise fun p q => p.stop ≤ q.start := by
  induction pieces generalizing start with
  | nil => exact .nil
  | cons p ps ih => exact .cons (fun q hq => (h.2.2.bounds.2 q hq).1) (ih h.2.2)

theorem cover {stop start : Nat} {pieces : List Piece} (h : Adjoin stop start pieces) (i : Nat) :
    (start ≤ i ∧ i < stop) ↔ ∃ p ∈ pieces, p.start ≤ i ∧ i < p.stop := by
  induction pieces generalizing start with
  | nil =>
    have : start = stop := h
    simp only [List.not_mem_nil, false_and, exists_false, iff_false]
    omega
  | cons p ps ih =>
    obtain ⟨hstart, hlt, hps⟩ := h
    have hle := hps.bounds.1
    rw [List.exists_mem_cons_iff, ← ih hps]
    omega

end Adjoin

structure Laid (line : List Char) (column : Nat) (items : List Item) (pieces : List Piece) :
    Prop where
  adjoin : Adjoin line.length column pieces
  items_eq : pieces.filterMap Piece.item? = items
  fits : ∀ p ∈ pieces, p.Fits line
  alternate : pieces.IsChain fun p q => p.isBlank = true → q.isBlank = false

namespace Laid

theorem item {line : List Char} {items : List Item} {pieces : List Piece} (i : Item)
    (hlt : i.start < i.stop) (hfits : (Piece.item i).Fits line)
    (h : Laid line i.stop items pieces) :
    Laid line i.start (i :: items) (.item i :: pieces) where
  adjoin := ⟨rfl, hlt, h.adjoin⟩
  items_eq := by simp [Piece.item?, h.items_eq]
  fits := List.forall_mem_cons.2 ⟨hfits, h.fits⟩
  alternate := h.alternate.cons fun _ _ hb => nomatch hb

theorem blank {text : List Char} {column : Nat} {items : List Item} {pieces : List Piece}
    {c : Char} (hc : c = ' ' ∨ c = '\t') (hat : text[column]? = some c)
    (h : Laid text (column + 1) items pieces) : ∃ pieces', Laid text column items pieces' := by
  have hchar : text[column]? = some ' ' ∨ text[column]? = some '\t' := by
    rcases hc with rfl | rfl
    · exact .inl hat
    · exact .inr hat
  have hafter : ∀ stop, (∀ i, column + 1 ≤ i → i < stop →
      text[i]? = some ' ' ∨ text[i]? = some '\t') → (Piece.blank column stop).Fits text := by
    intro stop hrest i hi hstop
    rcases Nat.eq_or_lt_of_le hi with rfl | hi
    · exact hchar
    · exact hrest i hi hstop
  obtain ⟨hadjoin, hitems, hfits, halternate⟩ := h
  -- A run of blank space that begins next grows by the character, and else it makes a run alone.
  match pieces with
  | .blank start stop :: ps =>
    obtain ⟨hstart, hlt, hps⟩ := hadjoin
    have hstart : start = column + 1 := hstart
    have hlt : start < stop := hlt
    refine ⟨.blank column stop :: ps, ⟨rfl, ?_, hps⟩, hitems, ?_, ?_⟩
    · show column < stop
      omega
    · obtain ⟨hblank, hrest⟩ := List.forall_mem_cons.1 hfits
      rw [hstart] at hblank
      exact List.forall_mem_cons.2 ⟨hafter stop hblank, hrest⟩
    · exact (List.isChain_cons.1 halternate).2.cons (List.isChain_cons.1 halternate).1
  | [] =>
    refine ⟨[.blank column (column + 1)], ⟨rfl, Nat.lt_succ_self _, hadjoin⟩, hitems, ?_,
      .singleton _⟩
    simpa using hafter (column + 1) (by omega)
  | .item i :: ps =>
    refine ⟨.blank column (column + 1) :: .item i :: ps, ⟨rfl, Nat.lt_succ_self _, hadjoin⟩, hitems,
      List.forall_mem_cons.2 ⟨hafter (column + 1) (by omega), hfits⟩, ?_⟩
    exact .cons_cons (fun _ => rfl) halternate

end Laid

theorem getElem?_of_drop_eq_cons {text cs : List Char} {column : Nat} {c : Char}
    (h : text.drop column = c :: cs) : text[column]? = some c := by
  have hhead := congrArg (fun l => l[0]?) h
  simpa using hhead

theorem Munched.exists_laid {line : List Char} {column : Nat} {cs : List Char}
    {items : List Item} (h : Munched column cs items) (hcs : line.drop column = cs)
    (hle : column ≤ line.length) : ∃ pieces, Laid line column items pieces := by
  have hlen : cs.length = line.length - column := by rw [← hcs, List.length_drop]
  induction h with
  | done column =>
    have hend : line.length ≤ column := List.drop_eq_nil_iff.1 hcs
    exact ⟨[], Nat.le_antisymm hle hend, rfl, by simp, .nil⟩
  | @skip column c cs items hc h ih =>
    rw [List.length_cons] at hlen
    obtain ⟨pieces, hpieces⟩ := ih (by rw [← List.tail_drop, hcs, List.tail_cons]) (by omega)
      (by omega)
    exact hpieces.blank hc (getElem?_of_drop_eq_cons hcs)
  | @token column w rest t items hw ht h ih =>
    rw [List.length_append] at hlen
    have hpos := List.length_pos_of_ne_nil ht.ne_nil
    obtain ⟨pieces, hpieces⟩ := ih (by rw [← List.drop_drop, hcs, List.drop_left]) (by omega)
      (by omega)
    refine ⟨_, hpieces.item (.token ⟨t, column, column + w.length⟩) ?_ ?_⟩
    · show column < column + w.length
      omega
    · show Spells ((line.drop column).take (column + w.length - column)) t
      rwa [hcs, Nat.add_sub_cancel_left, List.take_left]
  | @unknown column c cs items hs hc h ih =>
    rw [List.length_cons] at hlen
    obtain ⟨pieces, hpieces⟩ := ih (by rw [← List.tail_drop, hcs, List.tail_cons]) (by omega)
      (by omega)
    exact ⟨_, hpieces.item (.unknown ⟨c, column⟩) (Nat.lt_succ_self column)
      (getElem?_of_drop_eq_cons hcs)⟩

/-- The next token is the first among the items, and the unknown characters before it are noted;
without one the end of the text is next. -/
theorem Munched.seek_cases {column n : Nat} {cs : List Char} {items : List Item}
    (h : Munched column cs items) (hn : column + cs.length = n) (unknowns : List Unknown) :
    (∃ us : List Unknown, items = us.map .unknown ∧
      Scanner.seek column unknowns cs =
        (⟨.endOfInput, n, n⟩, ⟨[], n, unknowns ++ us, true⟩)) ∨
    ∃ (us : List Unknown) (t : Spanned) (more : List Item) (rest : List Char),
      items = us.map .unknown ++ .token t :: more ∧
      Scanner.seek column unknowns cs = (t, ⟨rest, t.stop, unknowns ++ us, false⟩) ∧
      Munched t.stop rest more ∧ t.stop + rest.length = n := by
  induction h generalizing unknowns with
  | done column =>
    have hcolumn : column = n := hn
    exact .inl ⟨[], rfl, by simp [Scanner.seek, hcolumn]⟩
  | @skip column c cs items hc h ih =>
    rw [Scanner.seek, if_pos (Scan.isSkipped_iff.2 hc)]
    exact ih (by rw [List.length_cons] at hn; omega) unknowns
  | @token column w rest t items hw ht h ih =>
    rw [List.length_append] at hn
    refine .inr ⟨[], ⟨t, column, column + w.length⟩, items, rest, rfl, ?_, h, ?_⟩
    · rw [List.append_nil]
      exact Scanner.seek_token ht (Token.first?_of_longest hw ht) column unknowns
    · show column + w.length + rest.length = n
      omega
  | @unknown column c cs items hs hc h ih =>
    rw [Scanner.seek_unknown (Scan.isSkipped_of_ne hs.1 hs.2) (Token.first?_of_not_isLexeme hc)]
    rcases ih (by rw [List.length_cons] at hn; omega) (unknowns ++ [⟨c, column⟩]) with
      ⟨us, hus, hseek⟩ | ⟨us, t, more, rest, hus, hseek, hmore, hrest⟩
    · exact .inl ⟨⟨c, column⟩ :: us, by rw [hus, List.map_cons], by simpa using hseek⟩
    · exact .inr ⟨⟨c, column⟩ :: us, t, more, rest, by rw [hus, List.map_cons, List.cons_append],
        by simpa using hseek, hmore, hrest⟩

theorem Scanner.steps_of_finished {s : Scanner} (h : s.finished = true) (count : Nat) :
    steps count s = List.replicate count (none, s) := by
  have hnext : s.next = (none, s) := by rw [next, if_pos h]
  induction count with
  | zero => rfl
  | succ count ih => rw [steps, hnext, ih, List.replicate_succ]

theorem token?_map_unknown (us : List Unknown) :
    (us.map Item.unknown).filterMap Item.token? = [] := by simp [Item.token?]

theorem unknown?_map_unknown (us : List Unknown) :
    (us.map Item.unknown).filterMap Item.unknown? = us := by
  induction us with
  | nil => rfl
  | cons u us ih => simpa [Item.unknown?] using ih

/-- From any scanner that has not come to the end: its tokens, the end, and nothing after that.
From the end on, every unknown character has been noted. -/
theorem Munched.steps {s : Scanner} {items : List Item} {n : Nat} (hf : s.finished = false)
    (h : Munched s.column s.rest items) (hn : s.column + s.rest.length = n) (k : Nat) :
    (s.steps ((items.filterMap Item.token?).length + 1 + k)).map Prod.fst =
      (items.filterMap Item.token?).map some ++
        some ⟨.endOfInput, n, n⟩ :: List.replicate k none ∧
    ((s.steps ((items.filterMap Item.token?).length + 1 + k)).drop
      (items.filterMap Item.token?).length).map (fun r => r.2.unknowns) =
      List.replicate (k + 1) (s.unknowns ++ items.filterMap Item.unknown?) := by
  induction hm : (items.filterMap Item.token?).length generalizing s items with
  | zero =>
    rcases h.seek_cases hn s.unknowns with ⟨us, rfl, hseek⟩ | ⟨us, t, more, rest, rfl, -, -, -⟩
    · have hsteps : s.steps (0 + 1 + k) = (some ⟨.endOfInput, n, n⟩,
          ⟨[], n, s.unknowns ++ us, true⟩) ::
          List.replicate k (none, ⟨[], n, s.unknowns ++ us, true⟩) := by
        rw [Nat.zero_add, Nat.add_comm, Scanner.steps, Scanner.next_of_not_finished hf, hseek,
          Scanner.steps_of_finished rfl]
      rw [hsteps, token?_map_unknown, unknown?_map_unknown]
      simp [List.replicate_succ]
    · simp [Item.token?] at hm
  | succ m ih =>
    rcases h.seek_cases hn s.unknowns with
      ⟨us, rfl, -⟩ | ⟨us, t, more, rest, rfl, hseek, hmore, hrest⟩
    · rw [token?_map_unknown] at hm
      cases hm
    · have htokens : (us.map Item.unknown ++ .token t :: more).filterMap Item.token? =
          t :: more.filterMap Item.token? := by
        rw [List.filterMap_append, token?_map_unknown]
        rfl
      have hunknowns : (us.map Item.unknown ++ .token t :: more).filterMap Item.unknown? =
          us ++ more.filterMap Item.unknown? := by
        rw [List.filterMap_append, unknown?_map_unknown]
        rfl
      have hsteps : s.steps (m + 1 + 1 + k) = (some t, ⟨rest, t.stop, s.unknowns ++ us, false⟩) ::
          Scanner.steps (m + 1 + k) ⟨rest, t.stop, s.unknowns ++ us, false⟩ := by
        rw [Nat.add_right_comm (m + 1) 1 k, Scanner.steps, Scanner.next_of_not_finished hf, hseek]
      rw [htokens, List.length_cons] at hm
      obtain ⟨hgiven, hnoted⟩ := @ih ⟨rest, t.stop, s.unknowns ++ us, false⟩ more rfl hmore hrest
        (Nat.succ.inj hm)
      rw [hsteps, htokens, hunknowns]
      refine ⟨?_, ?_⟩
      · rw [List.map_cons, hgiven]
        rfl
      · rw [List.drop_succ_cons, hnoted, List.append_assoc]

theorem Laid.tiles {line : List Char} {items : List Item} {pieces : List Piece}
    (h : Laid line 0 items pieces) : Tiles line pieces where
  nonempty p hp := (h.adjoin.bounds.2 p hp).2.1
  disjoint := h.adjoin.pairwise
  cover i := by
    rw [← h.adjoin.cover i]
    exact ⟨fun hi => ⟨Nat.zero_le i, hi⟩, fun hi => hi.2⟩
  fits := h.fits
  alternate := h.alternate

theorem Tiles.pairwise_items {line : List Char} {pieces : List Piece} (h : Tiles line pieces) :
    (pieces.filterMap Piece.item?).Pairwise fun i j => i.start < j.start := by
  refine List.pairwise_filterMap.2 (h.disjoint.imp_of_mem ?_)
  intro p q hp _ hle i hi j hj
  have hstart : ∀ (r : Piece) (l : Item), r.item? = some l → r.start = l.start := by
    intro r l hr
    cases r with
    | item l' =>
      cases hr
      rfl
    | blank => cases hr
  have hlt := h.nonempty p hp
  rw [← hstart p i hi, ← hstart q j hj]
  omega

theorem Scan.exists_tiles (line : List Char) :
    ∃ pieces, Tiles line pieces ∧ pieces.filterMap Piece.item? = items line := by
  obtain ⟨pieces, hpieces⟩ := (munched_itemsFrom 0 line).exists_laid
    (show line.drop 0 = line from rfl) (Nat.zero_le _)
  exact ⟨pieces, hpieces.tiles, hpieces.items_eq⟩

theorem Scanner.steps_start (line : List Char) (k : Nat) :
    ((start line).steps ((Scan.words line).length + 1 + k)).map Prod.fst =
      (Scan.words line).map some ++
        some ⟨.endOfInput, line.length, line.length⟩ :: List.replicate k none ∧
    (((start line).steps ((Scan.words line).length + 1 + k)).drop (Scan.words line).length).map
      (fun r => r.2.unknowns) = List.replicate (k + 1) (Scan.unknowns line) :=
  @Munched.steps (start line) _ line.length rfl (munched_itemsFrom 0 line) (Nat.zero_add _) k

end Reckon
