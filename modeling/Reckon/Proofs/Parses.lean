import Reckon.Proofs.Reader

/-! What a reader finds at the head of its tokens: a word of its language, a token that no word
goes on with, or too few tokens. In each case the tokens after those looked at do not matter. -/

set_option autoImplicit false

namespace Reckon

def Token.isBare : Token → Bool
  | complex _ | number _ | name _ => false
  | _ => true

theorem Token.eq_of_kind_eq {t u : Token} (hu : u.isBare = true) (h : t.kind = u.kind) :
    t = u := by
  cases u <;> cases t <;> simp_all [isBare, kind]

/-- Words of tokens, each with the code that stands for it. -/
abbrev Language := List Token → Code → Prop

namespace Language

def after (L : Language) (w : List Token) (out : Code) : Language :=
  fun w' out' => L (w ++ w') (out ++ out')

def Viable (L : Language) (w : List Token) : Prop := ∃ more out, L (w ++ more) out

def only (w : List Token) (out : Code) : Language := fun w' out' => w' = w ∧ out' = out

end Language

/-- The three ways in which reading can end. -/
inductive Parses (L : Language) (f : Reader) (ts : List Spanned) : Prop where
  | ok (pre rest : List Spanned) (out : Code) (split : ts = pre ++ rest)
      (word : L (pre.map Spanned.token) out)
      (run : ∀ (rest' : List Spanned) (code : Code), rest'.head? = rest.head? →
        f (.ofCode (pre ++ rest') code) = .ok (.ofCode rest' (code ++ out)))
  | wrong (pre rest : List Spanned) (t : Spanned) (out : Code) (split : ts = pre ++ t :: rest)
      (viable : L.Viable (pre.map Spanned.token))
      (run : ∀ (rest' : List Spanned) (code : Code),
        f (.ofCode (pre ++ t :: rest') code) =
          .error ⟨.ofSpanned t, .ofCode rest' (code ++ out)⟩)
  | short (out : Code) (viable : L.Viable (ts.map Spanned.token))
      (run : ∀ code : Code,
        f (.ofCode ts code) = .error ⟨.endOfInput, .ofCode [] (code ++ out)⟩)

namespace Parses

theorem mono {L L' : Language} {f : Reader} {ts : List Spanned} (h : Parses L f ts)
    (hL : ∀ w out, L w out → L' w out) : Parses L' f ts := by
  have hv : ∀ w, L.Viable w → L'.Viable w := by
    intro w hw
    obtain ⟨more, out, hw⟩ := hw
    exact ⟨more, out, hL _ _ hw⟩
  cases h with
  | ok pre rest out split word run => exact .ok pre rest out split (hL _ _ word) run
  | wrong pre rest t out split viable run =>
    exact .wrong pre rest t out split (hv _ viable) run
  | short out viable run => exact .short out (hv _ viable) run

theorem goOn {L : Language} {f g : Reader} {ts : List Spanned} (us : List Spanned) (done : Code)
    (hf : ∀ (rest : List Spanned) (code : Code),
      f (.ofCode (us ++ rest) code) = g (.ofCode rest (code ++ done)))
    (h : Parses (L.after (us.map Spanned.token) done) g ts) : Parses L f (us ++ ts) := by
  cases h with
  | ok pre rest out split word run =>
    refine .ok (us ++ pre) rest (done ++ out) (by simp [split])
      (by simpa [Language.after] using word) ?_
    intro rest' code hr
    rw [List.append_assoc, hf, run rest' _ hr, List.append_assoc]
  | wrong pre rest u out split viable run =>
    obtain ⟨more, out', hw⟩ := viable
    refine .wrong (us ++ pre) rest u (done ++ out) (by simp [split])
      ⟨more, done ++ out', by simpa [Language.after] using hw⟩ ?_
    intro rest' code
    rw [List.append_assoc, hf, run rest', List.append_assoc]
  | short out viable run =>
    obtain ⟨more, out', hw⟩ := viable
    refine .short (done ++ out) ⟨more, done ++ out', by simpa [Language.after] using hw⟩ ?_
    intro code
    rw [hf, run, List.append_assoc]

theorem cons {L : Language} {f g : Reader} {t : Spanned} {ts : List Spanned}
    (hf : ∀ (rest : List Spanned) (code : Code),
      f (.ofCode (t :: rest) code) = g (.ofCode rest code))
    (h : Parses (L.after [t.token] []) g ts) : Parses L f (t :: ts) :=
  goOn [t] [] (fun rest code => by simpa using hf rest code) h

theorem emit (i : Instr) (ts : List Spanned) : Parses (.only [] [i]) (Reader.emit i) ts := by
  refine .ok [] ts [i] rfl ⟨rfl, rfl⟩ ?_
  intro rest' code _
  simp [Reader.emit]

theorem emitBefore {L : Language} {g : Reader} {ts : List Spanned} (i : Instr)
    (h : Parses (L.after [] [i]) g ts) : Parses L (Reader.andThen (Reader.emit i) g) ts :=
  goOn [] [i] (fun rest code => by simp [Reader.andThen, Reader.emit, Except.bind]) h

theorem skip (tok : Token) (h : tok.isBare = true) (ts : List Spanned) :
    Parses (.only [tok] []) (Reader.skip tok.kind) ts := by
  cases ts with
  | nil => exact .short [] ⟨[tok], [], rfl, rfl⟩ (fun code => by simp [Reader.skip_nil])
  | cons t ts =>
    by_cases ht : t.token = tok
    · refine .ok [t] ts [] rfl ⟨by simp [ht], rfl⟩ ?_
      intro rest' code _
      simp [Reader.skip_cons, ht]
    · refine .wrong [] ts t [] rfl ⟨[tok], [], rfl, rfl⟩ ?_
      intro rest' code
      have hk : t.token.kind ≠ tok.kind := fun hk => ht (Token.eq_of_kind_eq h hk)
      simp [Reader.skip_cons, hk]

/-- One reader after another. Every word of the first has to be the beginning of a word of
the whole, and the second reads the rest of one. -/
theorem andThen {L₁ L : Language} {f g : Reader} {ts : List Spanned} (hf : Parses L₁ f ts)
    (hL : ∀ w out, L₁ w out → ∃ more out', L (w ++ more) (out ++ out'))
    (hg : ∀ (pre rest : List Spanned) (out : Code), ts = pre ++ rest →
      L₁ (pre.map Spanned.token) out → f (.ofCode ts []) = .ok (.ofCode rest out) →
      Parses (L.after (pre.map Spanned.token) out) g rest) :
    Parses L (Reader.andThen f g) ts := by
  have hv : ∀ w, L₁.Viable w → L.Viable w := by
    intro w hw
    obtain ⟨more, out, hw⟩ := hw
    obtain ⟨more', out', hw⟩ := hL _ _ hw
    exact ⟨more ++ more', out ++ out', by simpa using hw⟩
  cases hf with
  | wrong pre rest t out split viable run =>
    exact .wrong pre rest t out split (hv _ viable)
      (fun rest' code => Reader.andThen_of_error (run rest' code) g)
  | short out viable run =>
    exact .short out (hv _ viable) (fun code => Reader.andThen_of_error (run code) g)
  | ok pre rest out split word run =>
    have hok : f (.ofCode ts []) = .ok (.ofCode rest out) := by simpa [split] using run rest [] rfl
    -- The first reader sees one token of what the second takes, and that token is the same.
    cases hg pre rest out split word hok with
    | ok pre' rest' out' split' word' run' =>
      refine .ok (pre ++ pre') rest' (out ++ out') (by simp [split, split'])
        (by simpa [Language.after] using word') ?_
      intro more code hm
      have hh : (pre' ++ more).head? = rest.head? := by cases pre' <;> simp [split', hm]
      rw [List.append_assoc, Reader.andThen_of_ok (run _ code hh), run' more _ hm,
        List.append_assoc]
    | wrong pre' rest' t out' split' viable' run' =>
      obtain ⟨more, out'', hw⟩ := viable'
      refine .wrong (pre ++ pre') rest' t (out ++ out') (by simp [split, split'])
        ⟨more, out ++ out'', by simpa [Language.after] using hw⟩ ?_
      intro more code
      have hh : (pre' ++ t :: more).head? = rest.head? := by cases pre' <;> simp [split']
      rw [List.append_assoc, Reader.andThen_of_ok (run _ code hh), run' more, List.append_assoc]
    | short out' viable' run' =>
      obtain ⟨more, out'', hw⟩ := viable'
      refine .short (out ++ out') ⟨more, out ++ out'', by simpa [split, Language.after] using hw⟩ ?_
      intro code
      rw [split, Reader.andThen_of_ok (run rest code rfl), run', List.append_assoc]

theorem before {L₁ L : Language} {f g : Reader} {ts : List Spanned} {more : List Token}
    {last : Code} (hf : Parses L₁ f ts) (hg : ∀ rest, Parses (.only more last) g rest)
    (hL : ∀ w out, L₁ w out → L (w ++ more) (out ++ last)) :
    Parses L (Reader.andThen f g) ts := by
  refine hf.andThen (fun w out h => ⟨more, last, hL w out h⟩) ?_
  intro pre rest out _ h _
  refine (hg rest).mono ?_
  intro w out' hw
  obtain ⟨rfl, rfl⟩ := hw
  exact hL _ _ h

theorem skipBefore {L : Language} {g : Reader} {ts : List Spanned} (tok : Token)
    (h : tok.isBare = true) (hL : L.Viable [tok])
    (hg : ∀ t rest, ts = t :: rest → Parses (L.after [tok] []) g rest) :
    Parses L (Reader.andThen (Reader.skip tok.kind) g) ts := by
  refine (skip tok h ts).andThen ?_ ?_
  · intro w out hw
    obtain ⟨rfl, rfl⟩ := hw
    exact hL
  · intro pre rest out hts hw _
    obtain ⟨hpre, rfl⟩ := hw
    obtain ⟨t, rfl, -⟩ := List.map_eq_singleton_iff.1 hpre
    rw [hpre]
    exact hg t rest hts

theorem exists_of_ok {L : Language} {f : Reader} {ts : List Spanned} {d : Cursor}
    (h : Parses L f ts) (hok : f (.ofCode ts []) = .ok d) :
    ∃ (pre rest : List Spanned) (out : Code), ts = pre ++ rest ∧ L (pre.map Spanned.token) out ∧
      d = .ofCode rest out := by
  cases h with
  | ok pre rest out split word run =>
    have hrun := run rest [] rfl
    rw [← split, hok] at hrun
    exact ⟨pre, rest, out, split, word, Except.ok.inj hrun⟩
  | wrong pre rest t out split viable run =>
    have hrun := run rest []
    rw [← split, hok] at hrun
    cases hrun
  | short out viable run =>
    have hrun := run []
    rw [hok] at hrun
    cases hrun

end Parses

def rankOf : Nat → Rank
  | 0 | 1 => .sum
  | 2 => .product
  | _ => .unary

/-- Phrases of the rank that belongs to a level, with their code. -/
def Spelled (min : Nat) : Language :=
  fun w out => ∃ p : Phrase (rankOf min), p.tokens = w ∧ p.expr.code = out

namespace Spelled

theorem ofSum (p : Phrase .sum) {min : Nat} (h : min ≤ 1) :
    Spelled min p.tokens p.expr.code := by
  match min with
  | 0 | 1 => exact ⟨p, rfl, rfl⟩

theorem ofProduct (p : Phrase .product) {min : Nat} (h : min ≤ 2) :
    Spelled min p.tokens p.expr.code := by
  match min with
  | 0 | 1 => exact ⟨.ofProduct p, rfl, rfl⟩
  | 2 => exact ⟨p, rfl, rfl⟩

theorem ofUnary (p : Phrase .unary) (min : Nat) : Spelled min p.tokens p.expr.code := by
  match min with
  | 0 | 1 => exact ⟨.ofProduct (.ofUnary p), rfl, rfl⟩
  | 2 => exact ⟨.ofUnary p, rfl, rfl⟩
  | _ + 3 => exact ⟨p, rfl, rfl⟩

theorem mono {min k : Nat} {w : List Token} {out : Code} (h : Spelled k w out)
    (hk : min ≤ k ∨ 3 ≤ k) : Spelled min w out := by
  obtain ⟨p, rfl, rfl⟩ := h
  match k with
  | 0 | 1 => exact ofSum p (by omega)
  | 2 => exact ofProduct p (by omega)
  | _ + 3 => exact ofUnary p min

theorem binary {w w' : List Token} {out out' : Code} (op : Operator)
    (hl : Spelled op.precedence w out) (hr : Spelled (op.precedence + 1) w' out') :
    Spelled op.precedence (w ++ .operator op :: w') (out ++ out' ++ [.binary op]) := by
  obtain ⟨l, rfl, rfl⟩ := hl
  obtain ⟨r, rfl, rfl⟩ := hr
  cases op with
  | plus => exact ⟨.sum l .plus (.inl rfl) r, rfl, rfl⟩
  | minus => exact ⟨.sum l .minus (.inr rfl) r, rfl, rfl⟩
  | times => exact ⟨.product l .times (.inl rfl) r, rfl, rfl⟩
  | divide => exact ⟨.product l .divide (.inr rfl) r, rfl, rfl⟩

theorem negate {w : List Token} {out : Code} (h : Spelled 3 w out) :
    Spelled 3 (.operator .minus :: w) (out ++ [.negate]) := by
  obtain ⟨p, rfl, rfl⟩ := h
  exact ⟨.negate p, rfl, rfl⟩

theorem group {w : List Token} {out : Code} (h : Spelled 1 w out) :
    Spelled 3 (.leftParen :: w ++ [.rightParen]) out := by
  obtain ⟨p, rfl, rfl⟩ := h
  exact ⟨.ofPrimary (.group p), rfl, rfl⟩

theorem root {w : List Token} {out : Code} (h : Spelled 1 w out) :
    Spelled 3 (.sqrt :: .leftParen :: w ++ [.rightParen]) (out ++ [.root]) := by
  obtain ⟨p, rfl, rfl⟩ := h
  exact ⟨.ofPrimary (.root p), rfl, rfl⟩

theorem number (x : Binary64) : Spelled 3 [.number x] [.real x] :=
  ⟨.ofPrimary (.number x), rfl, rfl⟩

theorem zero {min : Nat} : Spelled min [.number 0] [.real 0] :=
  (number 0).mono (.inr (Nat.le_refl 3))

theorem complex (z : Complex) : Spelled 3 [.complex z] [.complex z] :=
  ⟨.ofPrimary (.complex z), rfl, rfl⟩

theorem name (text : String) : Spelled 3 [.name text] [.load text] :=
  ⟨.ofPrimary (.name text), rfl, rfl⟩

end Spelled

namespace Reader

theorem length_lt_of_climb {min : Nat} {c d : Cursor} (h : climb min c = .ok d) :
    d.input.length < c.input.length := by
  obtain ⟨e, -, he⟩ := exists_of_map_eq_ok h
  exact he ▸ e.property

theorem stops_or_joins (min : Nat) (ts : List Spanned) :
    Stops min ts ∨
      ∃ t op rest, ts = t :: rest ∧ t.token = .operator op ∧ min ≤ op.precedence := by
  cases ts with
  | nil => exact .inl trivial
  | cons t rest =>
    by_cases h : ∃ op, t.token = .operator op ∧ min ≤ op.precedence
    · obtain ⟨op, ht, hp⟩ := h
      exact .inr ⟨t, op, rest, rfl, ht, hp⟩
    · refine .inl (fun op ht => Nat.lt_of_not_le (fun hp => h ⟨op, ht, hp⟩))

theorem stops_of_operators {min : Nat} (n : Nat) {ts : List Spanned} {code : Code} {d : Cursor}
    (hn : ts.length ≤ n) (h : operators min (.ofCode ts code) = .ok d) : Stops min d.input := by
  induction n generalizing ts code with
  | zero =>
    have hts : ts = [] := List.length_eq_zero_iff.1 (by omega)
    subst hts
    have hs : Stops min [] := trivial
    rw [operators_of_stops hs] at h
    cases h
    exact hs
  | succ n ih =>
    rcases stops_or_joins min ts with hs | ⟨t, op, rest, rfl, ht, hp⟩
    · rw [operators_of_stops hs] at h
      cases h
      exact hs
    · rw [operators_of_le ht hp] at h
      cases hc : climb (op.precedence + 1) (.ofCode rest code) with
      | error s => simp [andThen, hc, Except.bind] at h
      | ok e =>
        have hlt := length_lt_of_climb hc
        rw [andThen_of_ok hc] at h
        refine @ih e.input (e.code.toList ++ [.binary op]) ?_ ?_
        · simp [Cursor.ofCode] at hlt hn
          omega
        · simpa [andThen, emit, Except.bind, ← Cursor.emit_ofCode, Cursor.ofCode_input_code] using h

theorem stops_of_climb {min : Nat} {c d : Cursor} (h : climb min c = .ok d) :
    Stops min d.input := by
  rw [climb_eq] at h
  cases hc : operand c with
  | error s => simp [andThen, hc, Except.bind] at h
  | ok e =>
    rw [andThen_of_ok hc, ← Cursor.ofCode_input_code e] at h
    exact stops_of_operators e.input.length (Nat.le_refl _) h

end Reader

theorem parses_operand {ts : List Spanned}
    (ih : ∀ (min : Nat) (us : List Spanned), us.length < ts.length →
      Parses (Spelled min) (Reader.climb min) us) :
    Parses (Spelled 3) Reader.operand ts := by
  have hnone : Language.Viable (Spelled 3) [] := ⟨_, _, Spelled.zero⟩
  cases ts with
  | nil => exact .short [] hnone (fun code => by simp [Reader.operand_nil])
  | cons t ts =>
    have hleaf : ∀ i, Spelled 3 [t.token] [i] →
        (∀ rest code,
          Reader.operand (.ofCode (t :: rest) code) = .ok (.ofCode rest (code ++ [i]))) →
        Parses (Spelled 3) Reader.operand (t :: ts) :=
      fun i hw hrun => .ok [t] ts [i] rfl hw (fun rest' code _ => hrun rest' code)
    have hwrong : (∀ rest code, Reader.operand (.ofCode (t :: rest) code) =
        .error ⟨.ofSpanned t, .ofCode rest code⟩) → Parses (Spelled 3) Reader.operand (t :: ts) :=
      fun hrun => .wrong [] ts t [] rfl hnone (fun rest' code => by simp [hrun])
    have hts : ∀ min, Parses (Spelled min) (Reader.climb min) ts := fun min => ih min ts (by simp)
    cases ht : t.token with
    | number x =>
      refine hleaf (.real x) (ht ▸ .number x) (fun rest code => ?_)
      simp [Reader.operand_cons, ht]
    | complex z =>
      refine hleaf (.complex z) (ht ▸ .complex z) (fun rest code => ?_)
      simp [Reader.operand_cons, ht]
    | name text =>
      refine hleaf (.load text) (ht ▸ .name text) (fun rest code => ?_)
      simp [Reader.operand_cons, ht]
    | operator op =>
      cases op with
      | minus =>
        refine .cons (fun rest code => by simp only [Reader.operand_cons, ht]; rfl) ?_
        refine (hts 3).before (Parses.emit .negate) ?_
        intro w out h
        simpa [Language.after, ht] using h.negate
      | _ => exact hwrong (fun rest code => by simp [Reader.operand_cons, ht])
    | leftParen =>
      refine .cons (fun rest code => by simp only [Reader.operand_cons, ht]; rfl) ?_
      refine (hts 1).before (Parses.skip .rightParen rfl) ?_
      intro w out h
      simpa [Language.after, ht] using h.group
    | sqrt =>
      have hclose : ∀ rest, Parses (.only [.rightParen] [.root])
          (Reader.andThen (Reader.skip .rightParen) (Reader.emit .root)) rest := by
        intro rest
        refine (Parses.skip .rightParen rfl rest).before (Parses.emit .root) ?_
        intro w out hw
        obtain ⟨rfl, rfl⟩ := hw
        exact ⟨rfl, rfl⟩
      refine .cons (fun rest code => by simp only [Reader.operand_cons, ht]; rfl) ?_
      refine .skipBefore .leftParen rfl ?_ ?_
      · exact ⟨[.number 0, .rightParen], [.real 0, .root],
          by simpa [Language.after, ht] using Spelled.zero.root⟩
      · intro u rest hts'
        have hlen : rest.length < (t :: ts).length := by
          simp only [hts', List.length_cons]
          omega
        refine (ih 1 rest hlen).before hclose ?_
        intro w out h
        simpa [Language.after, ht] using h.root
    | _ => exact hwrong (fun rest code => by simp [Reader.operand_cons, ht])

/-- The loop over operators, after a phrase that the next operator may take as its left
operand. The invariant is the level `k` of that phrase: no operator ahead binds more tightly. -/
theorem parses_operators {ts : List Spanned}
    (ih : ∀ (min : Nat) (us : List Spanned), us.length < ts.length →
      Parses (Spelled min) (Reader.climb min) us)
    {min k : Nat} {w : List Token} {out : Code} (hw : Spelled k w out) (hk : min ≤ k)
    (hs : Stops (k + 1) ts) :
    Parses ((Spelled min).after w out) (Reader.operators min) ts := by
  induction hn : ts.length using Nat.strongRecOn generalizing ts k w out with
  | ind n ihn =>
    rcases Reader.stops_or_joins min ts with hstop | ⟨t, op, ts, rfl, ht, hp⟩
    · refine .ok [] ts [] rfl (by simpa [Language.after] using hw.mono (.inl hk)) ?_
      intro rest' code hr
      simp [Reader.operators_of_stops (stops_congr hr hstop)]
    · have hop : op.precedence ≤ k := Nat.le_of_lt_succ (hs op ht)
      have hleft : Spelled op.precedence w out := hw.mono (.inl hop)
      refine .cons (Reader.operators_of_le ht hp) ?_
      refine (ih (op.precedence + 1) ts (by simp)).andThen ?_ ?_
      · intro w' out' h
        have hb := (hleft.binary op h).mono (.inl hp)
        exact ⟨[], [.binary op], by simpa [Language.after, ht] using hb⟩
      · intro pre rest out' hpre h hrun
        have hlen : rest.length < (t :: ts).length := by
          simp only [hpre, List.length_cons, List.length_append]
          omega
        have hb := hleft.binary op h
        have hstop : Stops (op.precedence + 1) rest := Reader.stops_of_climb hrun
        have hrest := ihn _ (hn ▸ hlen) (fun m us hus => ih m us (Nat.lt_trans hus hlen)) hb hp
          hstop rfl
        refine .emitBefore (.binary op) (hrest.mono ?_)
        intro w' out'' h'
        simpa [Language.after, ht] using h'

theorem parses_climb (min : Nat) (ts : List Spanned) :
    Parses (Spelled min) (Reader.climb min) ts := by
  induction hn : ts.length using Nat.strongRecOn generalizing ts min with
  | ind n ih =>
    have hshort : ∀ (m : Nat) (us : List Spanned), us.length < ts.length →
        Parses (Spelled m) (Reader.climb m) us := fun m us hus => ih us.length (hn ▸ hus) m us rfl
    rw [Reader.climb_eq]
    refine (parses_operand hshort).andThen ?_ ?_
    · intro w out h
      exact ⟨[], [], by simpa using h.mono (.inr (Nat.le_refl 3))⟩
    · intro pre rest out hpre h _
      have hlen : rest.length ≤ ts.length := by simp [hpre]
      refine parses_operators (fun m us hus => hshort m us (by omega))
        (h.mono (.inr (Nat.le_refl 3)) : Spelled (max min 3) _ _) (by omega) ?_
      exact stops_of_le (stops_three rest) (by omega)

end Reckon
