import Reckon.Value

/-!
Tokens, where they stand on a line, and how many characters at the head of a text belong to one.
Where a complex literal can be read it is longer than any other reading, and no two of the other
patterns begin alike, so the first pattern that applies gives the longest lexeme.
-/

set_option autoImplicit false

namespace Reckon

inductive Kind where
  | complex
  | number
  | name
  | sqrt
  | print
  | operator (op : Operator)
  | leftParen
  | rightParen
  | assign
  | ignored
  | endOfInput
  deriving DecidableEq, Repr

def Kind.label : Kind → String
  | .complex => "COMPLEX"
  | .number => "NUM"
  | .name => "ID"
  | .sqrt => "SQRT"
  | .print => "PRINT"
  | .operator .plus => "PLUS"
  | .operator .minus => "MINUS"
  | .operator .times => "TIMES"
  | .operator .divide => "DIVIDE"
  | .leftParen => "LPAREN"
  | .rightParen => "RPAREN"
  | .assign => "ASSIGN"
  | .ignored => "IGNORED"
  | .endOfInput => "$end"

inductive Token where
  | complex (z : Complex)
  | number (x : Binary64)
  | name (text : String)
  | sqrt
  | print
  | operator (op : Operator)
  | leftParen
  | rightParen
  | assign
  /-- Blank space; no line yields it, but a list of tokens may hold it. -/
  | ignored
  | endOfInput
  deriving DecidableEq, Repr

namespace Token

def kind : Token → Kind
  | complex _ => .complex
  | number _ => .number
  | name _ => .name
  | sqrt => .sqrt
  | print => .print
  | operator op => .operator op
  | leftParen => .leftParen
  | rightParen => .rightParen
  | assign => .assign
  | ignored => .ignored
  | endOfInput => .endOfInput

def operator? : Token → Option Operator
  | operator op => some op
  | _ => none

def chars : Token → List Char
  | complex z => z.chars
  | number x => x.chars
  | name text => text.toList
  | sqrt => ['s', 'q', 'r', 't']
  | print => ['p', 'r', 'i', 'n', 't']
  | operator op => [op.symbol]
  | leftParen => ['(']
  | rightParen => [')']
  | assign => ['=']
  | ignored => [' ']
  | endOfInput => "end of input".toList

def text (t : Token) : String := String.ofList t.chars

end Token

/-- A token and the characters it covers, from `start` up to but not including `stop`. -/
structure Spanned where
  token : Token
  start : Nat
  stop : Nat
  deriving DecidableEq, Repr

structure Unknown where
  lexeme : Char
  column : Nat
  deriving DecidableEq, Repr

def Unknown.message (u : Unknown) : String :=
  "Unknown token '" ++ String.singleton u.lexeme ++ "' at column " ++
    toString (u.column + 1) ++ "."

namespace Lexeme

def digitCount (cs : List Char) : Nat := (cs.takeWhile Char.isDigit).length

/-- Length of the numeral at the head; a point counts only between digits. -/
def numeral? (cs : List Char) : Option Nat :=
  let whole := digitCount cs
  if whole = 0 then none
  else match cs.drop whole with
    | [] => some whole
    | c :: rest =>
      if c = '.' ∧ digitCount rest ≠ 0 then some (whole + 1 + digitCount rest) else some whole

def unsignedComplex? (cs : List Char) : Option Nat := do
  let re ← numeral? cs
  let sign :: rest := cs.drop re | none
  guard (Complex.isSign sign)
  let im ← numeral? rest
  guard ((rest.drop im).head? = some 'j')
  return re + 1 + im + 1

def complex? : List Char → Option Nat
  | [] => none
  | c :: cs => if c = '-' then (unsignedComplex? cs).map (· + 1) else unsignedComplex? (c :: cs)

def isNameStart (c : Char) : Bool := c.isAlpha || c == '_'

def isNamePart (c : Char) : Bool := c.isAlphanum || c == '_'

def name? : List Char → Option Nat
  | [] => none
  | c :: cs => if isNameStart c then some ((cs.takeWhile isNamePart).length + 1) else none

def word (text : String) : Token :=
  if text = "sqrt" then .sqrt
  else if text = "print" then .print
  else .name text

def mark? (c : Char) : Option Token :=
  if c = '(' then some .leftParen
  else if c = ')' then some .rightParen
  else if c = '=' then some .assign
  else (Operator.ofSymbol? c).map .operator

end Lexeme

def Token.first? (cs : List Char) : Option (Token × Nat) :=
  match Lexeme.complex? cs with
  | some n => (Complex.ofLiteral? (cs.take n)).map fun z => (.complex z, n)
  | none =>
    match Lexeme.numeral? cs with
    | some n => (Binary64.ofNumeral? (cs.take n)).map fun x => (.number x, n)
    | none =>
      match Lexeme.name? cs with
      | some n => some (Lexeme.word (String.ofList (cs.take n)), n)
      | none => (cs.head?.bind Lexeme.mark?).map fun t => (t, 1)

end Reckon
