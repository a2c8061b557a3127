import Reckon.Text
import Reckon.Token.Scanner

/-!
Tokens by byte offsets. A lexer finds one lexeme after another and knows the bytes that each of
them takes. The tokenizer turns these offsets into columns, which count characters: it keeps the
last offset that it turned with its column, and counts the text since then. Columns are right as
long as offsets come in increasing order and never lie inside a character.
-/

set_option autoImplicit false

namespace Reckon
open Text

structure Lexer where
  source : List Char
  /-- The byte offsets of the last lexeme. -/
  start : Nat
  stop : Nat
  deriving DecidableEq, Repr

namespace Lexer

def ofLine (line : List Char) : Lexer := ⟨line, 0, 0⟩

def rest (l : Lexer) : List Char := ((splitAtByte? l.stop l.source).map Prod.snd).getD []

def slice (l : Lexer) : List Char := (slice? l.start l.stop l.source).getD []

/-- The first lexeme of a text that begins at a byte offset, with its own offsets. A character
that begins no token is an error. -/
def find (offset : Nat) : List Char → Option (Except Unit Token × Nat × Nat)
  | [] => none
  | c :: cs =>
    if Scan.isSkipped c then find (offset + c.utf8Size) cs
    else match Token.first? (c :: cs) with
      | some (t, n) => some (.ok t, offset, offset + byteSize ((c :: cs).take n))
      | none => some (.error (), offset, offset + c.utf8Size)

def next (l : Lexer) : Option (Except Unit Token) × Lexer :=
  match find l.stop l.rest with
  | some (found, start, stop) => (some found, ⟨l.source, start, stop⟩)
  | none => (none, ⟨l.source, byteSize l.source, byteSize l.source⟩)

theorem next_of_some {l : Lexer} {found : Except Unit Token} {start stop : Nat}
    (h : find l.stop l.rest = some (found, start, stop)) :
    l.next = (some found, ⟨l.source, start, stop⟩) := by simp [next, h]

theorem next_of_none {l : Lexer} (h : find l.stop l.rest = none) :
    l.next = (none, ⟨l.source, byteSize l.source, byteSize l.source⟩) := by simp [next, h]

theorem rest_eq {l : Lexer} {passed rest : List Char} (hs : l.source = passed ++ rest)
    (hstop : l.stop = byteSize passed) : l.rest = rest := by
  simp [Lexer.rest, hs, hstop, splitAtByte?_byteSize]

theorem exists_passed {l : Lexer} (h : l.rest ≠ []) :
    ∃ passed, l.source = passed ++ l.rest ∧ l.stop = byteSize passed := by
  cases hcut : splitAtByte? l.stop l.source with
  | none => simp [rest, hcut] at h
  | some cut =>
    obtain ⟨hsource, hsize⟩ := eq_append_of_splitAtByte? hcut
    exact ⟨cut.1, by simpa [rest, hcut] using hsource, hsize.symm⟩

theorem find_error {offset start stop : Nat} {cs : List Char}
    (h : find offset cs = some (.error (), start, stop)) :
    ∃ head c rest, cs = head ++ c :: rest ∧ stop = offset + byteSize (head ++ [c]) := by
  induction cs generalizing offset with
  | nil => simp [find] at h
  | cons c cs ih =>
    rw [find] at h
    split at h
    · obtain ⟨head, d, rest, rfl, rfl⟩ := ih h
      exact ⟨c :: head, d, rest, rfl, by simp; omega⟩
    · split at h
      · cases h
      · obtain ⟨rfl, rfl⟩ : offset = start ∧ offset + c.utf8Size = stop := by simpa using h
        exact ⟨[], c, cs, rfl, by simp⟩

theorem length_rest_lt {l : Lexer} (h : l.next.1 = some (.error ())) :
    l.next.2.rest.length < l.rest.length := by
  cases hfind : find l.stop l.rest with
  | none => simp [next_of_none hfind] at h
  | some lexeme =>
    obtain ⟨found, start, stop⟩ := lexeme
    obtain rfl : found = .error () := by simpa [next_of_some hfind] using h
    obtain ⟨head, c, rest, hrest, rfl⟩ := find_error hfind
    obtain ⟨passed, hsource, hstop⟩ := @exists_passed l (by simp [hrest])
    have hnext : l.next.2.rest = rest := by
      rw [next_of_some hfind]
      exact @rest_eq _ (passed ++ (head ++ [c])) rest (by simp [hsource, hrest]) (by simp [hstop])
    rw [hnext, hrest]
    simp
    omega

end Lexer

structure LexicalError where
  lexeme : List Char
  column : Nat
  deriving DecidableEq, Repr

def LexicalError.message (e : LexicalError) : String :=
  "Unknown token '" ++ String.ofList e.lexeme ++ "' at column " ++ toString (e.column + 1) ++ "."

structure Tokenizer where
  lexer : Lexer
  errors : List LexicalError
  finished : Bool
  /-- The last byte offset that was turned into a column, and that column. -/
  cursor : Nat × Nat
  deriving DecidableEq, Repr

namespace Tokenizer

def start (line : List Char) : Tokenizer := ⟨.ofLine line, [], false, (0, 0)⟩

/-- The column of a byte offset. Where there is no text to count, nothing is counted. -/
def charOffset (t : Tokenizer) (byte : Nat) : Nat × Tokenizer :=
  let counted := ((slice? t.cursor.1 byte t.lexer.source).map List.length).getD 0
  (t.cursor.2 + counted, { t with cursor := (byte, t.cursor.2 + counted) })

def charSpan (t : Tokenizer) (start stop : Nat) : (Nat × Nat) × Tokenizer :=
  let (first, t) := t.charOffset start
  let (last, t) := t.charOffset stop
  ((first, last), t)

/-- One turn of the search: a token or the end of the line, or an error that is recorded. -/
def turn (t : Tokenizer) : Option Spanned × Tokenizer :=
  let (found, lexer) := t.lexer.next
  let t := { t with lexer }
  match found with
  | some (.ok token) =>
    let (span, t) := t.charSpan lexer.start lexer.stop
    (some ⟨token, span.1, span.2⟩, t)
  | some (.error ()) =>
    let (span, t) := t.charSpan lexer.start lexer.stop
    (none, { t with errors := t.errors ++ [⟨lexer.slice, span.1⟩] })
  | none =>
    let (column, t) := { t with finished := true }.charOffset (byteSize lexer.source)
    (some ⟨.endOfInput, column, column⟩, t)

theorem length_rest_turn_lt {t : Tokenizer} (h : t.turn.1 = none) :
    t.turn.2.lexer.rest.length < t.lexer.rest.length := by
  unfold turn at h ⊢
  cases hfound : t.lexer.next.1 with
  | none => simp [hfound] at h
  | some found =>
    cases found with
    | ok token => simp [hfound] at h
    | error e =>
      have hlt := Lexer.length_rest_lt hfound
      simpa [hfound, charSpan, charOffset] using hlt

def seek (t : Tokenizer) : Spanned × Tokenizer :=
  match h : t.turn.1 with
  | some token => (token, t.turn.2)
  | none =>
    have := length_rest_turn_lt h
    t.turn.2.seek
termination_by t.lexer.rest.length

def next (t : Tokenizer) : Option Spanned × Tokenizer :=
  if t.finished then (none, t) else (some t.seek.1, t.seek.2)

def steps : Nat → Tokenizer → List (Option Spanned × Tokenizer)
  | 0, _ => []
  | count + 1, t => t.next :: steps count t.next.2

end Tokenizer
end Reckon
