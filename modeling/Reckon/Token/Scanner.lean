import Reckon.Token

/-!
Scanning a line by characters, all at once and token by token. Spaces and tabs are passed over, a
character that begins no token is set aside, and the tokens end with one that marks the end of the
line. Columns count characters as the scan goes on; a tokenizer over byte offsets gives the same
answers. A scanner may be drained, which passes over all that is left, and it may be given a window
of one token: the next answer is then looked at before it is taken.
-/

set_option autoImplicit false

namespace Reckon

inductive Item where
  | token (t : Spanned)
  | unknown (u : Unknown)
  deriving DecidableEq, Repr

namespace Item

def token? : Item → Option Spanned
  | token t => some t
  | unknown _ => none

def unknown? : Item → Option Unknown
  | token _ => none
  | unknown u => some u

end Item

namespace Scan

def isSkipped (c : Char) : Bool := c == ' ' || c == '\t'

/-- The items of a text that begins at `column`, whose first `covered` characters belong to
an item already found. -/
def itemsFrom (column : Nat) : Nat → List Char → List Item
  | _, [] => []
  | covered + 1, _ :: cs => itemsFrom (column + 1) covered cs
  | 0, c :: cs =>
    if isSkipped c then itemsFrom (column + 1) 0 cs
    else match Token.first? (c :: cs) with
      | some (t, n) => .token ⟨t, column, column + n⟩ :: itemsFrom (column + 1) (n - 1) cs
      | none => .unknown ⟨c, column⟩ :: itemsFrom (column + 1) 0 cs

def items (line : List Char) : List Item := itemsFrom 0 0 line

def tokens (line : List Char) : List Spanned :=
  (items line).filterMap Item.token? ++ [⟨.endOfInput, line.length, line.length⟩]

def unknowns (line : List Char) : List Unknown := (items line).filterMap Item.unknown?

end Scan

structure Scanner where
  rest : List Char
  column : Nat
  unknowns : List Unknown
  finished : Bool
  deriving DecidableEq, Repr

namespace Scanner

def start (line : List Char) : Scanner := ⟨line, 0, [], false⟩

def seek (column : Nat) (unknowns : List Unknown) : List Char → Spanned × Scanner
  | [] => (⟨.endOfInput, column, column⟩, ⟨[], column, unknowns, true⟩)
  | c :: cs =>
    if Scan.isSkipped c then seek (column + 1) unknowns cs
    else match Token.first? (c :: cs) with
      | some (t, n) =>
        (⟨t, column, column + n⟩, ⟨cs.drop (n - 1), column + n, unknowns, false⟩)
      | none => seek (column + 1) (unknowns ++ [⟨c, column⟩]) cs

def next (s : Scanner) : Option Spanned × Scanner :=
  if s.finished then (none, s)
  else
    let (t, s') := seek s.column s.unknowns s.rest
    (some t, s')

/-- The first `count` answers of `next`, each with the scanner after it. -/
def steps : Nat → Scanner → List (Option Spanned × Scanner)
  | 0, _ => []
  | count + 1, s => s.next :: steps count s.next.2

def size (s : Scanner) : Nat := if s.finished then 0 else s.rest.length + 1

theorem size_seek_le (column : Nat) (unknowns : List Unknown) (cs : List Char) :
    (seek column unknowns cs).2.size ≤ cs.length := by
  induction cs generalizing column unknowns with
  | nil => simp [seek, size]
  | cons c cs ih =>
    unfold seek
    split
    · have := ih (column + 1) unknowns
      simp only [List.length_cons]
      omega
    · split
      · simp [size]
      · have := ih (column + 1) (unknowns ++ [⟨c, column⟩])
        simp only [List.length_cons]
        omega

theorem size_lt_of_next {s : Scanner} {t : Spanned} (h : s.next.1 = some t) :
    s.next.2.size < s.size := by
  cases hf : s.finished with
  | true => simp [next, hf] at h
  | false =>
    have := size_seek_le s.column s.unknowns s.rest
    simp only [next, hf, size, Bool.false_eq_true, if_false] at this ⊢
    omega

theorem finished_of_next {s : Scanner} (h : s.next.1 = none) : s.next.2.finished = true := by
  cases hf : s.finished with
  | true => simp [next, hf]
  | false => simp [next, hf] at h

def drain (s : Scanner) : List Spanned × Scanner :=
  match h : s.next.1 with
  | none => ([], s.next.2)
  | some t =>
    have := size_lt_of_next h
    s.next.2.drain.map (t :: ·) id
termination_by s.size

end Scanner

structure Lookahead where
  scanner : Scanner
  /-- The answer of the scanner that was looked at and is not yet taken. -/
  seen : Option (Option Spanned)
  ended : seen = some none → scanner.finished = true

namespace Lookahead

def start (line : List Char) : Lookahead := ⟨.start line, none, by simp⟩

def peek (l : Lookahead) : Option Spanned × Lookahead :=
  match l.seen with
  | some answer => (answer, l)
  | none =>
    (l.scanner.next.1, ⟨l.scanner.next.2, some l.scanner.next.1, fun h =>
      Scanner.finished_of_next (Option.some.inj h)⟩)

def next (l : Lookahead) : Option Spanned × Lookahead :=
  match l.seen with
  | some answer => (answer, ⟨l.scanner, none, by simp⟩)
  | none => (l.scanner.next.1, ⟨l.scanner.next.2, none, by simp⟩)

def size (l : Lookahead) : Nat := l.scanner.size + l.seen.join.toList.length

theorem size_lt_of_next {l : Lookahead} {t : Spanned} (h : l.next.1 = some t) :
    l.next.2.size < l.size := by
  cases hs : l.seen with
  | none =>
    have hnext : l.scanner.next.1 = some t := by simpa [next, hs] using h
    simpa [next, size, hs] using Scanner.size_lt_of_next hnext
  | some answer =>
    obtain rfl : answer = some t := by simpa [next, hs] using h
    simp [next, size, hs]

theorem size_peek_le (l : Lookahead) : l.peek.2.size ≤ l.size := by
  cases hs : l.seen with
  | some answer => simp [peek, hs]
  | none =>
    cases ht : l.scanner.next.1 with
    | none =>
      have hf := Scanner.finished_of_next ht
      simp [peek, hs, size, ht, Scanner.size, hf]
    | some t =>
      have := Scanner.size_lt_of_next ht
      simp [peek, hs, size, ht]
      omega

theorem next_peek (l : Lookahead) : l.peek.2.next.1 = l.peek.1 := by
  cases hs : l.seen <;> simp [peek, next, hs]

theorem size_lt_of_peek {l : Lookahead} {t : Spanned} (h : l.peek.1 = some t) :
    l.peek.2.next.2.size < l.size := by
  have hlt := size_lt_of_next (l.next_peek.trans h)
  have hle := l.size_peek_le
  omega

end Lookahead
end Reckon
