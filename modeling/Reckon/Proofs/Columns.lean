import Reckon.Proofs.Tiling
import Reckon.Token.Tokenizer

/-! Columns from byte offsets. Wherever a tokenizer has come, its lexer and its cursor stand at the
byte where the rest of the line begins, and the cursor holds the number of characters before it.
So the text that it counts is always there, its answers are those of a scanner that counts
characters, and they account for every character of the line. -/

set_option autoImplicit false

namespace Reckon
open Text

def Unknown.error (u : Unknown) : LexicalError := ⟨[u.lexeme], u.column⟩

theorem Unknown.message_error (u : Unknown) : u.error.message = u.message := by
  show "Unknown token '" ++ String.ofList [u.lexeme] ++ "' at column " ++
    toString (u.column + 1) ++ "." = u.message
  rw [← String.singleton_eq_ofList]
  rfl

namespace Lexer

theorem find_blank_append {blanks : List Char} (h : ∀ c ∈ blanks, Scan.isSkipped c = true)
    (offset : Nat) (cs : List Char) :
    find offset (blanks ++ cs) = find (offset + byteSize blanks) cs := by
  induction blanks generalizing offset with
  | nil => simp
  | cons c blanks ih =>
    have hblanks : ∀ d ∈ blanks, Scan.isSkipped d = true := fun d hd => h d (by simp [hd])
    rw [List.cons_append, find, if_pos (h c (by simp)), ih hblanks, byteSize_cons, Nat.add_assoc]

theorem find_token {w rest : List Char} {t : Token} (hs : Spells w t)
    (h : Token.first? (w ++ rest) = some (t, w.length)) (offset : Nat) :
    find offset (w ++ rest) = some (.ok t, offset, offset + byteSize w) := by
  obtain ⟨c, v, rfl⟩ := List.exists_cons_of_ne_nil hs.ne_nil
  have hc : Scan.isSkipped c = false := hs.isSkipped_eq_false (by simp)
  rw [List.cons_append] at h ⊢
  rw [find, if_neg (by simp [hc]), h]
  simp

theorem find_unknown {c : Char} {cs : List Char} (hs : Scan.isSkipped c = false)
    (h : Token.first? (c :: cs) = none) (offset : Nat) :
    find offset (c :: cs) = some (.error (), offset, offset + byteSize [c]) := by
  rw [find, if_neg (by simp [hs]), h]
  simp

end Lexer

namespace Tokenizer

/-- The tokenizer has passed the same text as the scanner and recorded the same characters. -/
structure Mirrors (line passed : List Char) (s : Scanner) (t : Tokenizer) : Prop where
  line_eq : line = passed ++ s.rest
  column : s.column = passed.length
  source : t.lexer.source = line
  stop : t.lexer.stop = byteSize passed
  cursor : t.cursor = (byteSize passed, passed.length)
  errors : t.errors = s.unknowns.map Unknown.error
  finished : t.finished = s.finished

/-- The last lexeme has the bytes of the characters that the token covers. -/
def Placed (line : List Char) (token : Spanned) (l : Lexer) : Prop :=
  l.start = byteSize (line.take token.start) ∧ l.stop = byteSize (line.take token.stop)

theorem mirrors_start (line : List Char) : Mirrors line [] (.start line) (start line) :=
  ⟨rfl, rfl, rfl, rfl, rfl, rfl, rfl⟩

/-- The text since the last offset is there to be counted. -/
theorem charOffset_eq {line passed part rest : List Char} (h : line = passed ++ part ++ rest)
    (start stop : Nat) (errors : List LexicalError) (finished : Bool) :
    charOffset ⟨⟨line, start, stop⟩, errors, finished, (byteSize passed, passed.length)⟩
        (byteSize (passed ++ part)) =
      ((passed ++ part).length, ⟨⟨line, start, stop⟩, errors, finished,
        (byteSize (passed ++ part), (passed ++ part).length)⟩) := by
  simp only [charOffset, h, slice?_byteSize, Option.map_some, Option.getD_some, List.length_append]

theorem charSpan_eq {line passed blanks w rest : List Char}
    (h : line = passed ++ blanks ++ w ++ rest) (start stop : Nat) (errors : List LexicalError)
    (finished : Bool) :
    charSpan ⟨⟨line, start, stop⟩, errors, finished, (byteSize passed, passed.length)⟩
        (byteSize (passed ++ blanks)) (byteSize (passed ++ blanks ++ w)) =
      (((passed ++ blanks).length, (passed ++ blanks ++ w).length), ⟨⟨line, start, stop⟩, errors,
        finished, (byteSize (passed ++ blanks ++ w), (passed ++ blanks ++ w).length)⟩) := by
  simp only [charSpan, charOffset_eq (h.trans (List.append_assoc _ w rest)), charOffset_eq h]

theorem seek_of_some {t : Tokenizer} {token : Spanned} (h : t.turn.1 = some token) :
    t.seek = (token, t.turn.2) := by
  rw [seek]
  split <;> simp_all

theorem seek_of_none {t : Tokenizer} (h : t.turn.1 = none) : t.seek = t.turn.2.seek := by
  rw [seek]
  split <;> simp_all

namespace Mirrors

variable {line passed blanks : List Char} {column : Nat} {unknowns : List Unknown} {t : Tokenizer}

theorem find_eq {cs : List Char} (h : Mirrors line passed ⟨blanks ++ cs, column, unknowns, false⟩ t)
    (hblanks : ∀ c ∈ blanks, Scan.isSkipped c = true) :
    Lexer.find t.lexer.stop t.lexer.rest = Lexer.find (byteSize (passed ++ blanks)) cs := by
  rw [Lexer.rest_eq (h.source.trans h.line_eq) h.stop, h.stop, Lexer.find_blank_append hblanks,
    byteSize_append]

theorem turn_end (h : Mirrors line passed ⟨blanks ++ [], column, unknowns, false⟩ t)
    (hblanks : ∀ c ∈ blanks, Scan.isSkipped c = true) :
    t.turn.1 = some ⟨.endOfInput, (passed ++ blanks).length, (passed ++ blanks).length⟩ ∧
    Placed line ⟨.endOfInput, (passed ++ blanks).length, (passed ++ blanks).length⟩
      t.turn.2.lexer ∧
    Mirrors line (passed ++ blanks) ⟨[], (passed ++ blanks).length, unknowns, true⟩ t.turn.2 := by
  have hnext := Lexer.next_of_none (h.find_eq hblanks)
  obtain rfl : line = passed ++ blanks := by simpa using h.line_eq
  have hoffset := charOffset_eq (List.append_nil (passed ++ blanks)).symm
  rw [h.source] at hnext
  simp only [turn, hnext, h.cursor, hoffset]
  refine ⟨trivial, ?_, (List.append_nil _).symm, rfl, rfl, rfl, rfl, h.errors, rfl⟩
  rw [Placed, List.take_length]
  exact ⟨rfl, rfl⟩

theorem turn_token {w rest : List Char} {token : Token}
    (h : Mirrors line passed ⟨blanks ++ (w ++ rest), column, unknowns, false⟩ t)
    (hblanks : ∀ c ∈ blanks, Scan.isSkipped c = true) (hspells : Spells w token)
    (hfirst : Token.first? (w ++ rest) = some (token, w.length)) :
    t.turn.1 = some ⟨token, (passed ++ blanks).length, (passed ++ blanks ++ w).length⟩ ∧
    Placed line ⟨token, (passed ++ blanks).length, (passed ++ blanks ++ w).length⟩
      t.turn.2.lexer ∧
    Mirrors line (passed ++ blanks ++ w) ⟨rest, (passed ++ blanks ++ w).length, unknowns, false⟩
      t.turn.2 := by
  have hfind := h.find_eq hblanks
  rw [Lexer.find_token hspells hfirst, ← byteSize_append] at hfind
  have hnext := Lexer.next_of_some hfind
  have hline : line = passed ++ blanks ++ w ++ rest := by simpa using h.line_eq
  rw [h.source] at hnext
  simp only [turn, hnext, h.cursor, charSpan_eq hline]
  refine ⟨trivial, ?_, hline, rfl, rfl, rfl, rfl, h.errors, h.finished⟩
  rw [Placed, hline, List.take_left, List.append_assoc (passed ++ blanks), List.take_left]
  exact ⟨rfl, rfl⟩

theorem turn_unknown {c : Char} {cs : List Char}
    (h : Mirrors line passed ⟨blanks ++ c :: cs, column, unknowns, false⟩ t)
    (hblanks : ∀ c ∈ blanks, Scan.isSkipped c = true) (hc : Scan.isSkipped c = false)
    (hfirst : Token.first? (c :: cs) = none) :
    t.turn.1 = none ∧
    Mirrors line (passed ++ blanks ++ [c]) ⟨cs, (passed ++ blanks ++ [c]).length,
      unknowns ++ [⟨c, (passed ++ blanks).length⟩], false⟩ t.turn.2 := by
  have hfind := h.find_eq hblanks
  rw [Lexer.find_unknown hc hfirst, ← byteSize_append] at hfind
  have hnext := Lexer.next_of_some hfind
  have hline : line = passed ++ blanks ++ [c] ++ cs := by simpa using h.line_eq
  have hslice : Lexer.slice
      ⟨line, byteSize (passed ++ blanks), byteSize (passed ++ blanks ++ [c])⟩ = [c] := by
    rw [Lexer.slice, hline, slice?_byteSize, Option.getD_some]
  rw [h.source] at hnext
  simp only [turn, hnext, h.cursor, charSpan_eq hline, hslice]
  exact ⟨trivial, hline, rfl, rfl, rfl, rfl, by simp [h.errors, Unknown.error], h.finished⟩

/-- The scanner may have passed blank space that the lexer is still to pass. -/
theorem seek {cs : List Char} (h : Mirrors line passed ⟨blanks ++ cs, column, unknowns, false⟩ t)
    (hblanks : ∀ c ∈ blanks, Scan.isSkipped c = true) :
    t.seek.1 = (Scanner.seek (passed ++ blanks).length unknowns cs).1 ∧
    Placed line t.seek.1 t.seek.2.lexer ∧
    ∃ passed', Mirrors line passed' (Scanner.seek (passed ++ blanks).length unknowns cs).2
      t.seek.2 := by
  induction cs generalizing passed blanks column unknowns t with
  | nil =>
    obtain ⟨hturn, hplaced, hmirrors⟩ := h.turn_end hblanks
    rw [seek_of_some hturn]
    exact ⟨rfl, hplaced, _, hmirrors⟩
  | cons c cs ih =>
    cases hc : Scan.isSkipped c with
    | true =>
      have hlength : (passed ++ blanks).length + 1 = (passed ++ (blanks ++ [c])).length := by
        simp [Nat.add_assoc]
      rw [Scanner.seek, if_pos hc, hlength]
      refine ih (by simpa using h) fun d hd => ?_
      rcases List.mem_append.1 hd with hd | hd
      · exact hblanks d hd
      · rwa [List.mem_singleton.1 hd]
    | false =>
      cases hfirst : Token.first? (c :: cs) with
      | none =>
        obtain ⟨hturn, hmirrors⟩ := h.turn_unknown hblanks hc hfirst
        rw [seek_of_none hturn, Scanner.seek_unknown hc hfirst]
        have hseek := @ih _ [] _ _ _ hmirrors (by simp)
        rwa [List.append_nil, List.length_append] at hseek
      | some found =>
        obtain ⟨token, n⟩ := found
        obtain ⟨w, rest, hcs, rfl, hspells⟩ := Token.spells_of_first? hfirst
        rw [hcs] at h hfirst ⊢
        obtain ⟨hturn, hplaced, hmirrors⟩ := h.turn_token hblanks hspells hfirst
        rw [seek_of_some hturn, Scanner.seek_token hspells hfirst, ← List.length_append]
        exact ⟨rfl, hplaced, _, hmirrors⟩

theorem next {s : Scanner} (h : Mirrors line passed s t) :
    t.next.1 = s.next.1 ∧ (∀ token ∈ t.next.1, Placed line token t.next.2.lexer) ∧
    ∃ passed', Mirrors line passed' s.next.2 t.next.2 := by
  have hfinished := h.finished
  cases hs : s.finished with
  | true => simpa [Tokenizer.next, Scanner.next, hs, hfinished] using ⟨passed, h⟩
  | false =>
    obtain ⟨rest, column, unknowns, finished⟩ := s
    obtain rfl : finished = false := hs
    obtain ⟨htoken, hplaced, hmirrors⟩ := @seek line passed [] column unknowns t rest h (by simp)
    have hcolumn : column = passed.length := h.column
    rw [List.append_nil, ← hcolumn] at htoken hmirrors
    rw [Tokenizer.next, if_neg (by simp [hfinished]), Scanner.next_of_not_finished rfl]
    exact ⟨congrArg some htoken, by simpa using hplaced, hmirrors⟩

theorem steps {s : Scanner} (h : Mirrors line passed s t) (k : Nat) :
    (t.steps k).map Prod.fst = (s.steps k).map Prod.fst ∧
    (t.steps k).map (fun r => r.2.errors) =
      (s.steps k).map (fun r => r.2.unknowns.map Unknown.error) ∧
    ∀ r ∈ t.steps k, (∀ token ∈ r.1, Placed line token r.2.lexer) ∧
      ∃ before after, line = before ++ after ∧ r.2.cursor = (byteSize before, before.length) := by
  induction k generalizing passed s t with
  | zero => simp [Tokenizer.steps, Scanner.steps]
  | succ k ih =>
    obtain ⟨htoken, hplaced, passed', hmirrors⟩ := h.next
    obtain ⟨hgiven, hnoted, hrest⟩ := ih hmirrors
    rw [Tokenizer.steps, Scanner.steps]
    refine ⟨by simp [htoken, hgiven], by simp [hmirrors.errors, hnoted], fun r hr => ?_⟩
    rcases List.mem_cons.1 hr with rfl | hr
    · exact ⟨hplaced, passed', _, hmirrors.line_eq, hmirrors.cursor⟩
    · exact hrest r hr

end Mirrors
end Tokenizer

/-- The tokens of a line, the single characters recorded as errors, in the order of their places,
and the runs of blank space between them tile the line. A tokenizer hands out the tokens, then the
end at the length of the line, and from there on nothing, with every error recorded. After each
answer the lexer is at the bytes of the characters that the token covers, and the cursor holds a
byte offset at which a character of the line begins or the line ends, with the number of
characters before it. -/
theorem Tokenizer.steps_tile_line (line : List Char) :
    (∃ pieces, Tiles line pieces ∧ pieces.filterMap Piece.item? = Scan.items line) ∧
    (Scan.items line).Pairwise (fun i j => i.start < j.start) ∧
    (∀ t ∈ Scan.words line, t.token ≠ .endOfInput) ∧
    (∀ k, ((start line).steps ((Scan.words line).length + 1 + k)).map Prod.fst =
        (Scan.words line).map some ++
          some ⟨.endOfInput, line.length, line.length⟩ :: List.replicate k none ∧
      (((start line).steps ((Scan.words line).length + 1 + k)).drop (Scan.words line).length).map
        (fun r => r.2.errors) = List.replicate (k + 1) ((Scan.unknowns line).map Unknown.error)) ∧
    ∀ k, ∀ r ∈ (start line).steps k, (∀ token ∈ r.1, Placed line token r.2.lexer) ∧
      ∃ before after, line = before ++ after ∧ r.2.cursor = (byteSize before, before.length) := by
  obtain ⟨pieces, htiles, hitems⟩ := Scan.exists_tiles line
  refine ⟨⟨pieces, htiles, hitems⟩, hitems ▸ htiles.pairwise_items,
    fun t ht => Scan.words_ne_endOfInput line ht, fun k => ?_,
    fun k => ((mirrors_start line).steps k).2.2⟩
  obtain ⟨hgiven, hnoted⟩ := Scanner.steps_start line k
  obtain ⟨hfirst, herrors, -⟩ := (mirrors_start line).steps ((Scan.words line).length + 1 + k)
  refine ⟨hfirst.trans hgiven, ?_⟩
  rw [List.map_drop, herrors, ← List.map_drop]
  have hmap := congrArg (List.map (List.map Unknown.error)) hnoted
  rwa [List.map_map, List.map_replicate] at hmap

example : ((Tokenizer.start ['é', ' ', 'x']).steps 3).map (fun r => (r.1, r.2.cursor)) =
    [(some ⟨.name "x", 2, 3⟩, (4, 3)), (some ⟨.endOfInput, 3, 3⟩, (4, 3)), (none, (4, 3))] := by
  decide +kernel

end Reckon
