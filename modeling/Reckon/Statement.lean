import Reckon.Code
import Reckon.Grammar
import Reckon.Token.Scanner

/-!
Reading expressions and statements. An expression is read by climbing the levels of precedence:
the reader takes tokens from the front and appends code, and when it stops, the code written so far
and the tokens not taken remain visible. Each step that succeeds leaves fewer tokens, which bounds
the recursion. The first token of a statement, `name = expression` or `print(expression)`, decides
which of the two is read.
-/

set_option autoImplicit false

namespace Reckon

inductive SyntaxError where
  | unexpected (token : Token) (column : Nat)
  | endOfInput
  deriving DecidableEq, Repr

namespace SyntaxError

/-- The complaint about a token: the end mark is no token to complain about. -/
def ofSpanned (t : Spanned) : SyntaxError :=
  if t.token = .endOfInput then endOfInput else unexpected t.token t.start

def message : SyntaxError → String
  | unexpected token column =>
    "Syntax error at token " ++ token.kind.label ++ ", value " ++ token.text ++
      " (column " ++ toString (column + 1) ++ ")."
  | endOfInput => "Syntax error at end of input."

end SyntaxError

/-- Takes one token, which has to be of the given kind; the token is gone either way. -/
def expect (kind : Kind) : List Spanned → Except SyntaxError Spanned × List Spanned
  | [] => (.error .endOfInput, [])
  | t :: rest => (if t.token.kind = kind then .ok t else .error (.ofSpanned t), rest)

theorem length_lt_of_expect {kind : Kind} {ts rest : List Spanned} {t : Spanned}
    (h : expect kind ts = (.ok t, rest)) : rest.length < ts.length := by
  cases ts with
  | nil => simp [expect] at h
  | cons u us =>
    simp only [expect, Prod.mk.injEq] at h
    simp [← h.2]

structure Cursor where
  input : List Spanned
  code : Array Instr
  deriving DecidableEq, Repr

namespace Cursor

def emit (c : Cursor) (i : Instr) : Cursor := { c with code := c.code.push i }

@[simp] theorem input_emit (c : Cursor) (i : Instr) : (c.emit i).input = c.input := rfl

abbrev Before (c : Cursor) := { d : Cursor // d.input.length < c.input.length }

abbrev NotAfter (c : Cursor) := { d : Cursor // d.input.length ≤ c.input.length }

end Cursor

structure Stop where
  error : SyntaxError
  cursor : Cursor
  deriving DecidableEq, Repr

def Cursor.skip (kind : Kind) (c : Cursor) : Except Stop c.Before :=
  match h : expect kind c.input with
  | (.error e, rest) => .error ⟨e, ⟨rest, c.code⟩⟩
  | (.ok _, rest) => .ok ⟨⟨rest, c.code⟩, length_lt_of_expect h⟩

mutual

/-- Reads an operand and every operator after it that binds at least as tightly as `min`. -/
def climb (min : Nat) (c : Cursor) : Except Stop c.Before :=
  match operand c with
  | .error s => .error s
  | .ok ⟨d, hd⟩ =>
    match operators min d with
    | .error s => .error s
    | .ok ⟨e, he⟩ => .ok ⟨e, Nat.lt_of_le_of_lt he hd⟩
termination_by 3 * c.input.length + 2

def operators (min : Nat) (c : Cursor) : Except Stop c.NotAfter :=
  match c with
  | ⟨[], code⟩ => .ok ⟨⟨[], code⟩, Nat.le_refl _⟩
  | ⟨t :: rest, code⟩ =>
    match t.token.operator? with
    | none => .ok ⟨⟨t :: rest, code⟩, Nat.le_refl _⟩
    | some op =>
      if min ≤ op.precedence then
        match climb op.level.rightMin ⟨rest, code⟩ with
        | .error s => .error s
        | .ok ⟨d, hd⟩ =>
          have : d.input.length < rest.length := hd
          match operators min (d.emit (.binary op)) with
          | .error s => .error s
          | .ok ⟨e, he⟩ =>
            .ok ⟨e, Nat.le_trans he (Nat.le_of_lt (Nat.lt_succ_of_lt hd))⟩
      else .ok ⟨⟨t :: rest, code⟩, Nat.le_refl _⟩
termination_by 3 * c.input.length + 0

def operand (c : Cursor) : Except Stop c.Before :=
  match c with
  | ⟨[], code⟩ => .error ⟨.endOfInput, ⟨[], code⟩⟩
  | ⟨t :: rest, code⟩ =>
    match t.token with
    | .operator .minus =>
      match climb Level.unaryMinus.precedence ⟨rest, code⟩ with
      | .error s => .error s
      | .ok ⟨d, hd⟩ => .ok ⟨d.emit .negate, Nat.lt_succ_of_lt hd⟩
    | .number x => .ok ⟨⟨rest, code.push (.real x)⟩, Nat.lt_succ_self _⟩
    | .complex z => .ok ⟨⟨rest, code.push (.complex z)⟩, Nat.lt_succ_self _⟩
    | .name text => .ok ⟨⟨rest, code.push (.load text)⟩, Nat.lt_succ_self _⟩
    | .leftParen =>
      match climb Level.additive.precedence ⟨rest, code⟩ with
      | .error s => .error s
      | .ok ⟨d, hd⟩ =>
        match d.skip .rightParen with
        | .error s => .error s
        | .ok ⟨e, he⟩ => .ok ⟨e, Nat.lt_succ_of_lt (Nat.lt_trans he hd)⟩
    | .sqrt =>
      match Cursor.skip .leftParen ⟨rest, code⟩ with
      | .error s => .error s
      | .ok ⟨b, hb⟩ =>
        have : b.input.length < rest.length := hb
        match climb Level.additive.precedence b with
        | .error s => .error s
        | .ok ⟨d, hd⟩ =>
          match d.skip .rightParen with
          | .error s => .error s
          | .ok ⟨e, he⟩ =>
            .ok ⟨e.emit .root, Nat.lt_succ_of_lt (Nat.lt_trans he (Nat.lt_trans hd hb))⟩
    | _ => .error ⟨.ofSpanned t, ⟨rest, code⟩⟩
termination_by 3 * c.input.length + 1

end

inductive Statement where
  | assign (name : String) (code : Code)
  | print (code : Code)
  deriving DecidableEq, Repr

namespace Statement

def code : Statement → Code
  | assign _ code | print code => code

def readExpression (ts : List Spanned) : Except SyntaxError Code × List Spanned :=
  match climb Level.additive.precedence ⟨ts, #[]⟩ with
  | .error s => (.error s.error, s.cursor.input)
  | .ok ⟨c, _⟩ => (.ok c.code.toList, c.input)

def readAssign (name : String) (ts : List Spanned) : Except SyntaxError Statement × List Spanned :=
  match expect .assign ts with
  | (.error e, rest) => (.error e, rest)
  | (.ok _, rest) =>
    match readExpression rest with
    | (.error e, rest) => (.error e, rest)
    | (.ok code, rest) => (.ok (.assign name code), rest)

def readPrint (ts : List Spanned) : Except SyntaxError Statement × List Spanned :=
  match expect .leftParen ts with
  | (.error e, rest) => (.error e, rest)
  | (.ok _, rest) =>
    match readExpression rest with
    | (.error e, rest) => (.error e, rest)
    | (.ok code, rest) =>
      match expect .rightParen rest with
      | (.error e, rest) => (.error e, rest)
      | (.ok _, rest) => (.ok (.print code), rest)

/-- Reads either form without the end of the line; a first token that begins neither stays. -/
def readForm (ts : List Spanned) : Except SyntaxError Statement × List Spanned :=
  match ts with
  | [] => (.error .endOfInput, [])
  | t :: rest =>
    match t.token with
    | .name text => readAssign text rest
    | .print => readPrint rest
    | _ => (.error (.ofSpanned t), t :: rest)

def read (ts : List Spanned) : Except SyntaxError Statement × List Spanned :=
  match readForm ts with
  | (.error e, rest) => (.error e, rest)
  | (.ok s, rest) =>
    match expect .endOfInput rest with
    | (.error e, rest) => (.error e, rest)
    | (.ok _, rest) => (.ok s, rest)

def ofLine (line : List Char) : Except SyntaxError Statement := (read (Scan.tokens line)).1

end Statement
end Reckon
