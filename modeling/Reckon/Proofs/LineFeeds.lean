import Mathlib.Data.List.TakeWhile
import Reckon.Proofs.History
import Reckon.Proofs.Pattern

/-! Lines of bytes. A line feed is a character of its own wherever it stands: no longer character
reaches over it, and no other bytes are read as one. So it makes no difference whether bytes are
cut at line feeds and then read, or read and then cut, but for carriage returns at the end of a
line. -/

set_option autoImplicit false

namespace Reckon
namespace Text

theorem complete_append_feed {low : Nat} (hlow : 10 < low) (high follow bits used : Nat)
    (xs ys : List UInt8) :
    complete low high follow bits used (xs ++ 10 :: ys) =
      complete low high follow bits used xs := by
  induction xs generalizing low high follow bits used with
  | nil =>
    cases follow with
    | zero => rfl
    | succ follow =>
      have hfeed : ¬ (low ≤ 10 ∧ 10 ≤ high) := by omega
      exact if_neg hfeed
  | cons b xs ih =>
    cases follow with
    | zero => rfl
    | succ follow =>
      rw [List.cons_append, complete, complete]
      split
      · exact ih (by omega) _ _ _ _
      · rfl

theorem complete_used_le (low high follow bits used : Nat) (xs : List UInt8) :
    (complete low high follow bits used xs).2 ≤ used + xs.length := by
  induction xs generalizing low high follow bits used with
  | nil => cases follow <;> exact Nat.le_refl used
  | cons b xs ih =>
    cases follow with
    | zero => exact Nat.le_add_right used _
    | succ follow =>
      rw [complete]
      split
      · have hle := ih 0x80 0xBF follow (bits * 64 + b.toNat % 64) (used + 1)
        rw [List.length_cons]
        omega
      · exact Nat.le_add_right used _

/-- The bytes that may follow are none of the ASCII ones, and with the least of them the character
is none of the ASCII ones either. -/
theorem Lead.bounds_of_ofByte? {b : Nat} {l : Lead} (h : ofByte? b = some l) :
    0x80 ≤ l.low ∧ l.high ≤ 0xBF ∧
      ∃ more, l.follow = more + 1 ∧ 0x80 ≤ (l.bits * 64 + l.low % 64) * 64 ^ more := by
  unfold ofByte? at h
  repeat' split at h
  all_goals cases h
  all_goals refine ⟨?_, ?_, _, rfl, ?_⟩
  all_goals dsimp only
  all_goals omega

theorem firstChar_append_feed (b : UInt8) (xs ys : List UInt8) :
    firstChar b (xs ++ 10 :: ys) = firstChar b xs := by
  unfold firstChar
  split
  · rfl
  · split
    · rename_i l hl
      obtain ⟨hlow, -⟩ := Lead.bounds_of_ofByte? hl
      exact complete_append_feed (by omega) _ _ _ _ xs ys
    · rfl

theorem firstChar_used_le (b : UInt8) (xs : List UInt8) : (firstChar b xs).2 ≤ xs.length := by
  unfold firstChar
  split
  · exact Nat.zero_le _
  · split
    · rename_i l hl
      simpa using complete_used_le l.low l.high l.follow l.bits 0 xs
    · exact Nat.zero_le _

theorem decodeFrom_append_feed {used : Nat} {xs : List UInt8} (h : used ≤ xs.length)
    (ys : List UInt8) :
    decodeFrom used (xs ++ 10 :: ys) = decodeFrom used xs ++ '\n' :: decode ys := by
  induction xs generalizing used with
  | nil =>
    obtain rfl : used = 0 := Nat.le_zero.1 h
    rfl
  | cons b xs ih =>
    cases used with
    | zero =>
      rw [List.cons_append, decodeFrom, decodeFrom, firstChar_append_feed,
        ih (firstChar_used_le b xs), List.cons_append]
    | succ used => exact ih (Nat.le_of_succ_le_succ h)

/-- Reading goes on afresh after a line feed, whatever stands before it. -/
theorem decode_append_feed (xs ys : List UInt8) :
    decode (xs ++ 10 :: ys) = decode xs ++ '\n' :: decode ys :=
  decodeFrom_append_feed (Nat.zero_le _) ys

/-- A character beyond the ASCII ones, or the one that stands for no code point. -/
def IsLong (c : Char) : Prop := c.toNat = 0 ∨ 0x80 ≤ c.toNat

theorem isLong_replacement : IsLong replacement := .inr (by decide)

theorem isLong_ofNat {n : Nat} (h : 0x80 ≤ n) : IsLong (Char.ofNat n) := by
  by_cases hv : n.isValidChar
  · rw [Char.ofNat, dif_pos hv]
    exact .inr h
  · rw [Char.ofNat, dif_neg hv]
    exact .inl rfl

theorem isLong_complete {follow bits : Nat} (h : 0x80 ≤ bits * 64 ^ follow) (used : Nat)
    (xs : List UInt8) : IsLong (complete 0x80 0xBF follow bits used xs).1 := by
  induction follow generalizing bits used xs with
  | zero => exact isLong_ofNat (by simpa using h)
  | succ follow ih =>
    cases xs with
    | nil => exact isLong_replacement
    | cons b xs =>
      rw [complete]
      split
      · refine ih (Nat.le_trans h ?_) _ _
        rw [Nat.pow_succ, Nat.mul_comm (64 ^ follow), ← Nat.mul_assoc]
        exact Nat.mul_le_mul_right _ (Nat.le_add_right _ _)
      · exact isLong_replacement

theorem isLong_firstChar {b : UInt8} (h : 0x80 ≤ b.toNat) (xs : List UInt8) :
    IsLong (firstChar b xs).1 := by
  rw [firstChar, if_neg (by omega)]
  split
  · rename_i l hl
    -- The second byte has bounds of its own, which the induction over the others cannot carry.
    obtain ⟨hlow, hhigh, more, hfollow, hbits⟩ := Lead.bounds_of_ofByte? hl
    rw [hfollow]
    cases xs with
    | nil => exact isLong_replacement
    | cons c xs =>
      rw [complete]
      split
      · refine isLong_complete (Nat.le_trans hbits (Nat.mul_le_mul_right _ ?_)) _ _
        omega
      · exact isLong_replacement
  · exact isLong_replacement

theorem mem_of_mem_decodeFrom {c : Char} (hc : 0 < c.toNat ∧ c.toNat < 0x80) {used : Nat}
    {xs : List UInt8} (h : c ∈ decodeFrom used xs) : ∃ b ∈ xs, b.toNat = c.toNat := by
  induction xs generalizing used with
  | nil => cases used <;> simp [decodeFrom] at h
  | cons b xs ih =>
    have hlater : ∀ {k : Nat}, c ∈ decodeFrom k xs → ∃ d ∈ b :: xs, d.toNat = c.toNat := by
      intro k hk
      obtain ⟨d, hd, he⟩ := ih hk
      exact ⟨d, List.mem_cons_of_mem b hd, he⟩
    cases used with
    | succ used => exact hlater h
    | zero =>
      rcases List.mem_cons.1 h with hfirst | h
      · refine ⟨b, List.mem_cons_self, ?_⟩
        by_cases hb : b.toNat < 0x80
        · rw [hfirst, firstChar, if_pos hb, Pattern.toNat_ofNat (by omega)]
        · have hlong := isLong_firstChar (Nat.le_of_not_lt hb) xs
          rw [← hfirst] at hlong
          rcases hlong with hlong | hlong
          · omega
          · omega
      · exact hlater h

theorem feed_notMem_decode {xs : List UInt8} (h : 10 ∉ xs) : '\n' ∉ decode xs := by
  intro hmem
  obtain ⟨b, hb, he⟩ := mem_of_mem_decodeFrom (by decide) hmem
  have hten : b = 10 := UInt8.toNat_inj.1 he
  exact h (hten ▸ hb)

theorem return_notMem_decode {xs : List UInt8} (h : 13 ∉ xs) : '\r' ∉ decode xs := by
  intro hmem
  obtain ⟨b, hb, he⟩ := mem_of_mem_decodeFrom (by decide) hmem
  have hthirteen : b = 13 := UInt8.toNat_inj.1 he
  exact h (hthirteen ▸ hb)

theorem decode_eq_nil_iff {xs : List UInt8} : decode xs = [] ↔ xs = [] := by
  cases xs <;> simp [decode, decodeFrom]

/-- Bytes are taken line by line: a last piece without a line feed, or a piece, a line feed and
the lines after it. -/
theorem induction_on_feeds {motive : List UInt8 → Prop} (last : ∀ xs, 10 ∉ xs → motive xs)
    (line : ∀ xs ys, 10 ∉ xs → motive ys → motive (xs ++ 10 :: ys)) (bytes : List UInt8) :
    motive bytes := by
  induction hn : bytes.length using Nat.strongRecOn generalizing bytes with
  | ind n ih =>
    by_cases h : 10 ∈ bytes
    · obtain ⟨xs, ys, rfl, hxs⟩ := List.eq_append_cons_of_mem h
      refine line xs ys hxs (ih ys.length ?_ ys rfl)
      rw [← hn, List.length_append, List.length_cons]
      omega
    · exact last bytes h

def dropReturns (cs : List Char) : List Char := dropEndWhile (· == '\r') cs

theorem dropReturns_dropReturn (cs : List Char) :
    dropReturns (dropReturn cs.reverse).reverse = dropReturns cs := by
  rw [dropReturns, dropReturns, dropEndWhile, dropEndWhile, List.reverse_reverse]
  cases cs.reverse with
  | nil => rfl
  | cons c rest =>
    rw [dropReturn]
    split
    · rename_i hc
      simp [hc]
    · rfl

theorem dropEndWhile_isLineEnd {cs : List Char} (h : '\n' ∉ cs) :
    dropEndWhile isLineEnd cs = dropReturns cs := by
  have hdrop : ∀ r : List Char, '\n' ∉ r → r.dropWhile isLineEnd = r.dropWhile (· == '\r') := by
    intro r hr
    induction r with
    | nil => rfl
    | cons c r ih =>
      obtain ⟨hc, hr⟩ := not_or.1 (mt List.mem_cons.2 hr)
      simp [List.dropWhile_cons, isLineEnd, Ne.symm hc, ih hr]
  rw [dropEndWhile, dropReturns, dropEndWhile, hdrop _ (by simpa using h)]

theorem lines_of_notMem {cs : List Char} (h : '\n' ∉ cs) :
    lines cs = if cs = [] then [] else [cs] := by
  have happend := linesFrom_append h [] []
  rw [List.append_nil, List.append_nil] at happend
  rw [lines, happend, linesFrom]
  simp

theorem lines_append {cs : List Char} (h : '\n' ∉ cs) (ds : List Char) :
    lines (cs ++ '\n' :: ds) = (dropReturn cs.reverse).reverse :: lines ds := by
  rw [lines, linesFrom_append h, List.append_nil, linesFrom, if_pos rfl]
  rfl

theorem piecesFrom_append {w : List UInt8} (h : 10 ∉ w) (current rest : List UInt8) :
    piecesFrom current (w ++ rest) = piecesFrom (w.reverse ++ current) rest := by
  induction w generalizing current with
  | nil => rfl
  | cons b w ih =>
    obtain ⟨hb, hw⟩ := not_or.1 (mt List.mem_cons.2 h)
    rw [List.cons_append, piecesFrom, if_neg (Ne.symm hb), ih hw, List.reverse_cons,
      List.append_assoc]
    rfl

theorem sourceLine_append_feed (xs : List UInt8) : sourceLine (xs ++ [10]) = sourceLine xs := by
  rw [sourceLine, decode_append_feed, sourceLine, dropEndWhile, List.reverse_append]
  rfl

theorem sourceLines_of_notMem {xs : List UInt8} (h : 10 ∉ xs) :
    sourceLines xs = if xs = [] then [] else [sourceLine xs] := by
  have happend := piecesFrom_append h [] []
  rw [List.append_nil, List.append_nil] at happend
  rw [sourceLines, happend, piecesFrom]
  by_cases hxs : xs = [] <;> simp [hxs]

theorem sourceLines_append {xs : List UInt8} (h : 10 ∉ xs) (ys : List UInt8) :
    sourceLines (xs ++ 10 :: ys) = sourceLine xs :: sourceLines ys := by
  rw [sourceLines, piecesFrom_append h, List.append_nil, piecesFrom, if_pos rfl, List.map_cons,
    List.reverse_cons, List.reverse_reverse, sourceLine_append_feed]
  rfl

theorem sourceLine_of_notMem {xs : List UInt8} (h : 10 ∉ xs) :
    sourceLine xs = dropReturns (decode xs) := dropEndWhile_isLineEnd (feed_notMem_decode h)

/-- Cutting and then reading is reading and then cutting, but for returns at the ends. -/
theorem sourceLines_eq_map (bytes : List UInt8) :
    sourceLines bytes = (lines (decode bytes)).map dropReturns := by
  induction bytes using induction_on_feeds with
  | last xs h =>
    rw [sourceLines_of_notMem h, lines_of_notMem (feed_notMem_decode h), sourceLine_of_notMem h]
    by_cases hxs : xs = [] <;> simp [decode_eq_nil_iff, hxs]
  | line xs ys h ih =>
    rw [sourceLines_append h, decode_append_feed, lines_append (feed_notMem_decode h),
      List.map_cons, dropReturns_dropReturn, sourceLine_of_notMem h, ih]

theorem dropReturns_of_notMem {cs : List Char} (h : '\r' ∉ cs) : dropReturns cs = cs := by
  have hkeep : cs.reverse.dropWhile (· == '\r') = cs.reverse := by
    refine List.dropWhile_eq_self_iff.2 fun hpos hc => h ?_
    rw [← beq_iff_eq.1 hc]
    exact List.mem_reverse.1 (List.getElem_mem hpos)
  rw [dropReturns, dropEndWhile, hkeep, List.reverse_reverse]

theorem dropReturn_of_notMem {cs : List Char} (h : '\r' ∉ cs) :
    (dropReturn cs.reverse).reverse = cs := by
  have hreturn : '\r' ∉ (dropReturn cs.reverse).reverse := fun hmem =>
    h (List.mem_reverse.1 (mem_of_mem_dropReturn (List.mem_reverse.1 hmem)))
  rw [← dropReturns_of_notMem hreturn, dropReturns_dropReturn, dropReturns_of_notMem h]

theorem sourceLines_eq_lines {bytes : List UInt8} (h : 13 ∉ bytes) :
    sourceLines bytes = lines (decode bytes) := by
  induction bytes using induction_on_feeds with
  | last xs hfeed =>
    rw [sourceLines_of_notMem hfeed, lines_of_notMem (feed_notMem_decode hfeed),
      sourceLine_of_notMem hfeed, dropReturns_of_notMem (return_notMem_decode h)]
    simp only [decode_eq_nil_iff]
  | line xs ys hfeed ih =>
    simp only [List.mem_append, List.mem_cons, not_or] at h
    have hreturn := return_notMem_decode h.1
    rw [sourceLines_append hfeed, decode_append_feed, lines_append (feed_notMem_decode hfeed),
      sourceLine_of_notMem hfeed, dropReturns_of_notMem hreturn, dropReturn_of_notMem hreturn,
      ih h.2.2]

/-- Line feeds end lines, and what follows the last of them is a line unless it is nothing. -/
def lineCount (bytes : List UInt8) : Nat :=
  bytes.count 10 + if bytes = [] ∨ bytes.getLast? = some 10 then 0 else 1

theorem lineCount_of_notMem {xs : List UInt8} (h : 10 ∉ xs) :
    lineCount xs = if xs = [] then 0 else 1 := by
  have hlast : xs.getLast? ≠ some 10 := fun hlast => h (List.mem_of_getLast? hlast)
  simp [lineCount, List.count_eq_zero_of_not_mem h, hlast]

theorem lineCount_append {xs : List UInt8} (h : 10 ∉ xs) (ys : List UInt8) :
    lineCount (xs ++ 10 :: ys) = lineCount ys + 1 := by
  have hlast : (xs ++ 10 :: ys).getLast? = some 10 ↔ ys = [] ∨ ys.getLast? = some 10 := by
    cases ys with
    | nil => simp
    | cons y ys => simp [List.getLast?_cons_cons]
  have hne : xs ++ 10 :: ys ≠ [] := by simp
  rw [lineCount, lineCount, List.count_append, List.count_eq_zero_of_not_mem h,
    List.count_cons_self]
  simp only [hlast, hne, false_or]
  omega

theorem length_sourceLines (bytes : List UInt8) : (sourceLines bytes).length = lineCount bytes := by
  induction bytes using induction_on_feeds with
  | last xs h =>
    rw [sourceLines_of_notMem h, lineCount_of_notMem h]
    by_cases hxs : xs = [] <;> simp [hxs]
  | line xs ys h ih => rw [sourceLines_append h, List.length_cons, ih, lineCount_append h]

def splitPiece : List UInt8 → List UInt8 × List UInt8
  | [] => ([], [])
  | b :: bs => if b = 10 then ([b], bs) else (b :: (splitPiece bs).1, (splitPiece bs).2)

/-- Reads one line of a stream, and gives the rest of the stream; at its end there is none. -/
def readLine? (bytes : List UInt8) : Option (List Char × List UInt8) :=
  let (piece, rest) := splitPiece bytes
  if piece.isEmpty then none else some (sourceLine piece, rest)

inductive ReadsAll : List UInt8 → List (List Char) → Prop
  | done {bytes : List UInt8} (h : readLine? bytes = none) : ReadsAll bytes []
  | line {bytes rest : List UInt8} {l : List Char} {ls : List (List Char)}
      (h : readLine? bytes = some (l, rest)) (more : ReadsAll rest ls) : ReadsAll bytes (l :: ls)

theorem ReadsAll.unique {bytes : List UInt8} {ls ls' : List (List Char)} (h : ReadsAll bytes ls)
    (h' : ReadsAll bytes ls') : ls = ls' := by
  induction h generalizing ls' with
  | done hnone =>
    cases h' with
    | done => rfl
    | line hsome => rw [hnone] at hsome; cases hsome
  | line hsome more ih =>
    cases h' with
    | done hnone => rw [hsome] at hnone; cases hnone
    | line hsome' more' =>
      rw [hsome] at hsome'
      cases hsome'
      rw [ih more']

theorem splitPiece_append {xs : List UInt8} (h : 10 ∉ xs) (ys : List UInt8) :
    splitPiece (xs ++ 10 :: ys) = (xs ++ [10], ys) := by
  induction xs with
  | nil => rfl
  | cons b xs ih =>
    obtain ⟨hb, hxs⟩ := not_or.1 (mt List.mem_cons.2 h)
    rw [List.cons_append, splitPiece, if_neg (Ne.symm hb), ih hxs]
    rfl

theorem splitPiece_of_notMem {xs : List UInt8} (h : 10 ∉ xs) : splitPiece xs = (xs, []) := by
  induction xs with
  | nil => rfl
  | cons b xs ih =>
    obtain ⟨hb, hxs⟩ := not_or.1 (mt List.mem_cons.2 h)
    rw [splitPiece, if_neg (Ne.symm hb), ih hxs]

theorem readsAll_sourceLines (bytes : List UInt8) : ReadsAll bytes (sourceLines bytes) := by
  induction bytes using induction_on_feeds with
  | last xs h =>
    rw [sourceLines_of_notMem h]
    split
    · rename_i hxs
      subst hxs
      exact .done rfl
    · rename_i hxs
      have hend : ReadsAll [] [] := .done rfl
      refine .line ?_ hend
      simp [readLine?, splitPiece_of_notMem h, hxs]
  | line xs ys h ih =>
    rw [sourceLines_append h, ← sourceLine_append_feed]
    refine .line ?_ ih
    simp [readLine?, splitPiece_append h]

theorem feed_notMem_sourceLines {bytes : List UInt8} {l : List Char} (h : l ∈ sourceLines bytes) :
    '\n' ∉ l := by
  rw [sourceLines_eq_map] at h
  obtain ⟨line, hline, rfl⟩ := List.mem_map.1 h
  intro hmem
  refine newline_notMem_linesFrom (by simp) _ line hline ?_
  exact List.mem_reverse.1 ((List.dropWhile_sublist _).mem (List.mem_reverse.1 hmem))

/-- Reading a stream line by line to its end gives the lines of its text, without the carriage
returns at their ends. Both have one line for each line feed and one more for what follows the
last, and no line holds a line feed. -/
theorem readsAll_iff_and_lines_decode (bytes : List UInt8) :
    (∀ ls, ReadsAll bytes ls ↔ ls = (lines (decode bytes)).map dropReturns) ∧
    sourceLines bytes = (lines (decode bytes)).map dropReturns ∧
    (sourceLines bytes).length = lineCount bytes ∧
    (lines (decode bytes)).length = lineCount bytes ∧
    ∀ l ∈ sourceLines bytes, '\n' ∉ l := by
  have hmap := sourceLines_eq_map bytes
  have hlength := length_sourceLines bytes
  refine ⟨fun ls => ⟨fun h => ?_, ?_⟩, hmap, hlength, ?_, fun l hl => feed_notMem_sourceLines hl⟩
  · rw [← hmap]
    exact h.unique (readsAll_sourceLines bytes)
  · rintro rfl
    rw [← hmap]
    exact readsAll_sourceLines bytes
  · rw [← hlength, hmap, List.length_map]

theorem feed_after_truncated_character :
    ReadsAll [0xE2, 0x82, 0x0A, 0x0D, 0x0D, 0x0A, 0x61, 0x0D] [['\uFFFD'], [], ['a']] ∧
      ['a'] ∈ sourceLines [0xE2, 0x82, 0x0A, 0x0D, 0x0D, 0x0A, 0x61, 0x0D] ∧ '\n' ∉ ['a'] := by
  obtain ⟨hreads, -, -, -, hfeed⟩ :=
    readsAll_iff_and_lines_decode [0xE2, 0x82, 0x0A, 0x0D, 0x0D, 0x0A, 0x61, 0x0D]
  have hmem : ['a'] ∈ sourceLines [0xE2, 0x82, 0x0A, 0x0D, 0x0D, 0x0A, 0x61, 0x0D] := by decide
  exact ⟨(hreads _).2 (by decide), hmem, hfeed _ hmem⟩

end Text
end Reckon
