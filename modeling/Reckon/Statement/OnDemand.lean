import Reckon.Statement
import Reckon.Token.Scanner

/-!
Reading a statement while its line is being scanned. A token is scanned when the reader looks at it
or takes it, and never sooner; whatever the reader has not asked for when it comes to a halt is
scanned after that, so that no unknown character of the line is missed.
-/

set_option autoImplicit false

namespace Reckon

structure Feed where
  tokens : Lookahead
  code : Array Instr

namespace Feed

def emit (f : Feed) (i : Instr) : Feed := { f with code := f.code.push i }

def ahead? (f : Feed) : Option Spanned := f.tokens.peek.1

def look (f : Feed) : Feed := { f with tokens := f.tokens.peek.2 }

/-- The feed without the next token, which was looked at first. -/
def take (f : Feed) : Feed := { f with tokens := f.tokens.peek.2.next.2 }

abbrev Before (f : Feed) := { g : Feed // g.tokens.size < f.tokens.size }

abbrev NotAfter (f : Feed) := { g : Feed // g.tokens.size ≤ f.tokens.size }

end Feed

structure Halt where
  error : SyntaxError
  feed : Feed

namespace OnDemand

def expect (kind : Kind) (l : Lookahead) : Except SyntaxError Spanned × Lookahead :=
  match l.next.1 with
  | none => (.error .endOfInput, l.next.2)
  | some t => (if t.token.kind = kind then .ok t else .error (.ofSpanned t), l.next.2)

theorem size_lt_of_expect {kind : Kind} {l : Lookahead} {t : Spanned}
    (h : (expect kind l).1 = .ok t) : (expect kind l).2.size < l.size := by
  cases hn : l.next.1 with
  | none => simp [expect, hn] at h
  | some u => simpa [expect, hn] using Lookahead.size_lt_of_next hn

def skip (kind : Kind) (f : Feed) : Except Halt f.Before :=
  match h : (expect kind f.tokens).1 with
  | .error e => .error ⟨e, ⟨(expect kind f.tokens).2, f.code⟩⟩
  | .ok _ => .ok ⟨⟨(expect kind f.tokens).2, f.code⟩, size_lt_of_expect h⟩

mutual

def climb (min : Nat) (f : Feed) : Except Halt f.Before :=
  match operand f with
  | .error s => .error s
  | .ok ⟨g, hg⟩ =>
    match operators min g with
    | .error s => .error s
    | .ok ⟨k, hk⟩ => .ok ⟨k, Nat.lt_of_le_of_lt hk hg⟩
termination_by 3 * f.tokens.size + 2

def operators (min : Nat) (f : Feed) : Except Halt f.NotAfter :=
  match h : f.ahead? with
  | none => .ok ⟨f.look, f.tokens.size_peek_le⟩
  | some t =>
    match t.token.operator? with
    | none => .ok ⟨f.look, f.tokens.size_peek_le⟩
    | some op =>
      if min ≤ op.precedence then
        have htake : f.take.tokens.size < f.tokens.size := Lookahead.size_lt_of_peek h
        match climb op.level.rightMin f.take with
        | .error s => .error s
        | .ok ⟨g, hg⟩ =>
          have : (g.emit (.binary op)).tokens.size < f.tokens.size := Nat.lt_trans hg htake
          match operators min (g.emit (.binary op)) with
          | .error s => .error s
          | .ok ⟨k, hk⟩ => .ok ⟨k, Nat.le_trans hk (Nat.le_of_lt this)⟩
      else .ok ⟨f.look, f.tokens.size_peek_le⟩
termination_by 3 * f.tokens.size + 0

def operand (f : Feed) : Except Halt f.Before :=
  match h : f.ahead? with
  | none => .error ⟨.endOfInput, f.take⟩
  | some t =>
    have htake : f.take.tokens.size < f.tokens.size := Lookahead.size_lt_of_peek h
    match t.token with
    | .operator .minus =>
      match climb Level.unaryMinus.precedence f.take with
      | .error s => .error s
      | .ok ⟨g, hg⟩ => .ok ⟨g.emit .negate, Nat.lt_trans hg htake⟩
    | .number x => .ok ⟨f.take.emit (.real x), htake⟩
    | .complex z => .ok ⟨f.take.emit (.complex z), htake⟩
    | .name text => .ok ⟨f.take.emit (.load text), htake⟩
    | .leftParen =>
      match climb Level.additive.precedence f.take with
      | .error s => .error s
      | .ok ⟨g, hg⟩ =>
        match skip .rightParen g with
        | .error s => .error s
        | .ok ⟨k, hk⟩ => .ok ⟨k, Nat.lt_trans hk (Nat.lt_trans hg htake)⟩
    | .sqrt =>
      match skip .leftParen f.take with
      | .error s => .error s
      | .ok ⟨b, hb⟩ =>
        have hb' : b.tokens.size < f.tokens.size := Nat.lt_trans hb htake
        match climb Level.additive.precedence b with
        | .error s => .error s
        | .ok ⟨g, hg⟩ =>
          match skip .rightParen g with
          | .error s => .error s
          | .ok ⟨k, hk⟩ => .ok ⟨k.emit .root, Nat.lt_trans hk (Nat.lt_trans hg hb')⟩
    | _ => .error ⟨.ofSpanned t, f.take⟩
termination_by 3 * f.tokens.size + 1

end

def readExpression (l : Lookahead) : Except SyntaxError Code × Lookahead :=
  match climb Level.additive.precedence ⟨l, #[]⟩ with
  | .error s => (.error s.error, s.feed.tokens)
  | .ok ⟨f, _⟩ => (.ok f.code.toList, f.tokens)

def readAssign (name : String) (l : Lookahead) : Except SyntaxError Statement × Lookahead :=
  match expect .name l with
  | (.error e, l) => (.error e, l)
  | (.ok _, l) =>
    match expect .assign l with
    | (.error e, l) => (.error e, l)
    | (.ok _, l) =>
      match readExpression l with
      | (.error e, l) => (.error e, l)
      | (.ok code, l) => (.ok (.assign name code), l)

def readPrint (l : Lookahead) : Except SyntaxError Statement × Lookahead :=
  match expect .print l with
  | (.error e, l) => (.error e, l)
  | (.ok _, l) =>
    match expect .leftParen l with
    | (.error e, l) => (.error e, l)
    | (.ok _, l) =>
      match readExpression l with
      | (.error e, l) => (.error e, l)
      | (.ok code, l) =>
        match expect .rightParen l with
        | (.error e, l) => (.error e, l)
        | (.ok _, l) => (.ok (.print code), l)

def readForm (l : Lookahead) : Except SyntaxError Statement × Lookahead :=
  match l.peek with
  | (none, l) => (.error .endOfInput, l)
  | (some t, l) =>
    match t.token with
    | .name text => readAssign text l
    | .print => readPrint l
    | _ => (.error (.ofSpanned t), l)

def read (l : Lookahead) : Except SyntaxError Statement × Lookahead :=
  match readForm l with
  | (.error e, l) => (.error e, l)
  | (.ok s, l) =>
    match expect .endOfInput l with
    | (.error e, l) => (.error e, l)
    | (.ok _, l) => (.ok s, l)

/-- Reads a line on demand and scans what is left of it; a token that was looked at and not taken
is dropped. -/
def parse (line : List Char) : Except SyntaxError Statement × List Unknown :=
  ((read (.start line)).1, (read (.start line)).2.scanner.drain.2.unknowns)

end OnDemand
end Reckon
