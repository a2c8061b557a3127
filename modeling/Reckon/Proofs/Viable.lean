import Reckon.Proofs.Recognition
import Reckon.Proofs.Words

/-! Where a line goes wrong. A syntax error names the first token after which the tokens can no
longer become a sentence; if there is none, the line ended too early. -/

set_option autoImplicit false

namespace Reckon

def Viable (ws : List Token) : Prop := ∃ (more : List Token) (d : Sentence), d.tokens = ws ++ more

theorem viable_take {ws : List Token} (h : Viable ws) (n : Nat) : Viable (ws.take n) := by
  obtain ⟨more, d, hd⟩ := h
  exact ⟨ws.drop n ++ more, d, by rw [hd, ← List.append_assoc, List.take_append_drop]⟩

theorem viable_take_of_le {ws : List Token} {i j : Nat} (h : Viable (ws.take j)) (hij : i ≤ j) :
    Viable (ws.take i) := by
  have ht := viable_take h i
  rwa [List.take_take, Nat.min_eq_left hij] at ht

theorem viable_of_sentences {ws : List Token} (h : Sentences.Viable ws)
    (hws : Token.endOfInput ∉ ws) : Viable ws := by
  obtain ⟨more, out, d, hd, -⟩ := h
  rcases List.eq_nil_or_concat more with rfl | ⟨more, last, rfl⟩
  · rw [List.append_nil] at hd
    simp [hd] at hws
  · rw [List.concat_eq_append, ← List.append_assoc] at hd
    exact ⟨more, d, (List.append_inj' hd rfl).1.symm⟩

/-- Reading stops at the same token whatever comes after it, so no sentence goes on there. -/
theorem not_viable_of_error {pre : List Spanned} {t : Spanned} {e : SyntaxError}
    (h : ∀ rest, (Statement.read (pre ++ t :: rest)).1 = .error e) :
    ¬ Viable ((pre ++ [t]).map Spanned.token) := by
  intro h'
  obtain ⟨more, d, hd⟩ := h'
  obtain ⟨tail, rfl⟩ : ∃ tail : List Spanned, tail.map Spanned.token = more :=
    ⟨more.map fun tok => ⟨tok, 0, 0⟩, by simp [Function.comp_def]⟩
  have hw : (pre ++ t :: tail).map Spanned.token = d.tokens := by simp [hd]
  have hok : Statement.read (pre ++ t :: tail ++ [⟨.endOfInput, 0, 0⟩]) = (.ok d.statement, []) :=
    Statement.read_tokens d hw rfl []
  have herr := h (tail ++ [⟨.endOfInput, 0, 0⟩])
  rw [List.append_assoc, List.cons_append] at hok
  simp [hok] at herr

section

variable {ws : List Spanned} {mark : Spanned}

theorem not_sentence_of_error {e : SyntaxError} (hm : mark.token = .endOfInput)
    (h : (Statement.read (ws ++ [mark])).1 = .error e) :
    ¬ ∃ d : Sentence, d.tokens = ws.map Spanned.token := by
  intro h'
  obtain ⟨d, hd⟩ := h'
  simp [Statement.read_tokens d hd.symm hm] at h

theorem read_line_cases (hm : mark.token = .endOfInput)
    (hws : ∀ t ∈ ws, t.token ≠ .endOfInput) :
    (∃ d : Sentence, d.tokens = ws.map Spanned.token ∧
      (Statement.read (ws ++ [mark])).1 = .ok d.statement) ∨
    (∃ (i : Nat) (t : Spanned), ws[i]? = some t ∧ Viable ((ws.map Spanned.token).take i) ∧
      ¬ Viable ((ws.map Spanned.token).take (i + 1)) ∧
      (Statement.read (ws ++ [mark])).1 = .error (.unexpected t.token t.start)) ∨
    (Viable (ws.map Spanned.token) ∧ (¬ ∃ d : Sentence, d.tokens = ws.map Spanned.token) ∧
      (Statement.read (ws ++ [mark])).1 = .error .endOfInput) := by
  have hnot : Token.endOfInput ∉ ws.map Spanned.token := by simpa using hws
  cases parses_sentence (ws ++ [mark]) with
  | ok pre rest out split word run =>
    have hread := Statement.read_eq_sentence (ws ++ [mark])
    rw [split, run rest [] rfl, ← split] at hread
    obtain ⟨d, hd, hs⟩ := Statement.exists_sentence_of_line hws hread
    exact .inl ⟨d, hd, by rw [hread, hs]⟩
  | wrong pre rest t out split viable run =>
    have herr : ∀ rest', (Statement.read (pre ++ t :: rest')).1 = .error (.ofSpanned t) :=
      fun rest' => Statement.read_of_error (run rest' [])
    rcases append_singleton_cases split with ⟨rest', rfl⟩ | ⟨rfl, rfl⟩
    · have ht : t.token ≠ .endOfInput := hws t (by simp)
      have he := herr (rest' ++ [mark])
      rw [SyntaxError.ofSpanned, if_neg ht] at he
      have hpre : ((pre ++ t :: rest').map Spanned.token).take pre.length =
          pre.map Spanned.token := by simp
      have hpre' : ((pre ++ t :: rest').map Spanned.token).take (pre.length + 1) =
          (pre ++ [t]).map Spanned.token := by simp [List.take_append, List.take_of_length_le]
      refine .inr (.inl ⟨pre.length, t, by simp, ?_, ?_, by simpa using he⟩)
      · rw [hpre]
        exact viable_of_sentences viable (by simp at hnot ⊢; exact hnot.1)
      · rw [hpre']
        exact not_viable_of_error herr
    · have he := herr []
      rw [SyntaxError.ofSpanned, if_pos hm] at he
      exact .inr (.inr ⟨viable_of_sentences viable hnot, not_sentence_of_error hm he, he⟩)
  | short out viable run =>
    have he := Statement.read_of_error (run [])
    obtain ⟨more, out, hv⟩ := viable
    have hv' : Sentences.Viable (ws.map Spanned.token) :=
      ⟨mark.token :: more, out, by simpa using hv⟩
    exact .inr (.inr ⟨viable_of_sentences hv' hnot, not_sentence_of_error hm he, he⟩)

end

theorem index_unique {ws : List Token} {i j : Nat} (hi : Viable (ws.take i))
    (hi' : ¬ Viable (ws.take (i + 1))) (hj : Viable (ws.take j))
    (hj' : ¬ Viable (ws.take (j + 1))) : i = j := by
  rcases Nat.lt_trichotomy i j with h | h | h
  · exact (hi' (viable_take_of_le hj h)).elim
  · exact h
  · exact (hj' (viable_take_of_le hi h)).elim

/-- A line is refused because of a token just when the tokens before it begin a sentence and
those up to it do not; the error shows that token and its column. It is refused for its end just
when its tokens begin a sentence and are none. -/
theorem Statement.ofLine_eq_error_iff (line : List Char) :
    (∀ (token : Token) (column : Nat), ofLine line = .error (.unexpected token column) ↔
      ∃ (i : Nat) (t : Spanned), (Scan.words line)[i]? = some t ∧
        Viable (((Scan.words line).map Spanned.token).take i) ∧
        ¬ Viable (((Scan.words line).map Spanned.token).take (i + 1)) ∧
        token = t.token ∧ column = t.start) ∧
    (ofLine line = .error .endOfInput ↔
      Viable ((Scan.words line).map Spanned.token) ∧
        ¬ ∃ d : Sentence, d.tokens = (Scan.words line).map Spanned.token) := by
  have hcases := @read_line_cases (Scan.words line) ⟨.endOfInput, line.length, line.length⟩ rfl
    (fun t ht => Scan.words_ne_endOfInput line ht)
  rw [show ofLine line =
    (read (Scan.words line ++ [⟨.endOfInput, line.length, line.length⟩])).1 from rfl]
  rcases hcases with ⟨d, hd, hr⟩ | ⟨i, t, ht, hi, hi', hr⟩ | ⟨hv, hn, hr⟩ <;> rw [hr]
  · have hv : Viable ((Scan.words line).map Spanned.token) := ⟨[], d, by simp [hd]⟩
    refine ⟨fun token column => ⟨nofun, ?_⟩, ⟨nofun, ?_⟩⟩
    · intro h
      obtain ⟨i, t, -, -, hi', -⟩ := h
      exact (hi' (viable_take hv _)).elim
    · intro h
      exact (h.2 ⟨d, hd⟩).elim
  · refine ⟨fun token column => ⟨fun h => ?_, ?_⟩, ⟨nofun, ?_⟩⟩
    · cases h
      exact ⟨i, t, ht, hi, hi', rfl, rfl⟩
    · intro h
      obtain ⟨j, u, hu, hj, hj', rfl, rfl⟩ := h
      obtain rfl := index_unique hi hi' hj hj'
      rw [ht] at hu
      cases hu
      rfl
    · intro h
      exact (hi' (viable_take h.1 _)).elim
  · refine ⟨fun token column => ⟨nofun, ?_⟩, ⟨fun _ => ⟨hv, hn⟩, fun _ => rfl⟩⟩
    intro h
    obtain ⟨i, t, -, -, hi', -⟩ := h
    exact (hi' (viable_take hv _)).elim

end Reckon
