import Reckon.Token

/-!
The grammar as data: levels of precedence, productions over kinds of tokens with what each of them
writes, and the table that shows both. A level that groups from the left asks for a tighter level
on its right.
-/

set_option autoImplicit false

namespace Reckon

inductive Associativity where
  | left
  | right
  deriving DecidableEq, Repr

def Associativity.label : Associativity → String
  | .left => "left"
  | .right => "right"

structure Level where
  precedence : Nat
  associativity : Associativity
  operators : List String
  deriving DecidableEq, Repr

namespace Level

def additive : Level := ⟨1, .left, ["+", "-"]⟩

def multiplicative : Level := ⟨2, .left, ["*", "/"]⟩

def unaryMinus : Level := ⟨3, .right, ["-u"]⟩

def all : List Level := [additive, multiplicative, unaryMinus]

/-- The least precedence allowed in the right operand. -/
def rightMin (l : Level) : Nat :=
  match l.associativity with
  | .left => l.precedence + 1
  | .right => l.precedence

end Level

def Operator.level : Operator → Level
  | plus | minus => .additive
  | times | divide => .multiplicative

def Operator.precedence (op : Operator) : Nat := op.level.precedence

namespace Grammar

inductive Nonterminal where
  | statement
  | expr
  deriving DecidableEq, Repr

def Nonterminal.label : Nonterminal → String
  | .statement => "statement"
  | .expr => "expr"

inductive Symbol where
  | nonterminal (n : Nonterminal)
  | terminal (k : Kind)
  deriving DecidableEq, Repr

def Symbol.label : Symbol → String
  | .nonterminal n => n.label
  | .terminal k => k.label

structure Production where
  left : Nonterminal
  right : List Symbol
  emits : String
  levelTag : Option String
  deriving DecidableEq, Repr

namespace Production

def rightText (p : Production) : String := " ".intercalate (p.right.map Symbol.label)

def infixOf (op : Operator) : Production :=
  ⟨.expr, [.nonterminal .expr, .terminal (.operator op), .nonterminal .expr],
    "expr expr " ++ String.singleton op.symbol, none⟩

end Production

def productions : List Production :=
  [⟨.statement, [.terminal .name, .terminal .assign, .nonterminal .expr],
      "store ID <- expr", none⟩,
    ⟨.statement, [.terminal .print, .terminal .leftParen, .nonterminal .expr,
      .terminal .rightParen], "yield expr", none⟩]
  ++ Operator.all.map Production.infixOf ++
  [⟨.expr, [.terminal (.operator .minus), .nonterminal .expr], "expr neg", some "-u"⟩,
    ⟨.expr, [.terminal .leftParen, .nonterminal .expr, .terminal .rightParen], "expr", none⟩,
    ⟨.expr, [.terminal .number], "NUM", none⟩,
    ⟨.expr, [.terminal .complex], "COMPLEX", none⟩,
    ⟨.expr, [.terminal .name], "load ID", none⟩,
    ⟨.expr, [.terminal .sqrt, .terminal .leftParen, .nonterminal .expr,
      .terminal .rightParen], "expr sqrt", none⟩]

def alignRight (width : Nat) (s : String) : String :=
  String.ofList (List.replicate (width - s.length) ' ') ++ s

def alignLeft (width : Nat) (s : String) : String :=
  s ++ String.ofList (List.replicate (width - s.length) ' ')

def Production.row (p : Production) (number : Nat) : String :=
  let tag := match p.levelTag with
    | none => ""
    | some t => " %prec " ++ t
  alignRight 2 (toString number) ++ ": " ++ p.left.label ++ " -> " ++ p.rightText ++ tag ++
    "    => " ++ p.emits ++ "\n"

def levelRow (l : Level) : String :=
  alignRight 2 (toString l.precedence) ++ "  " ++ alignLeft 5 l.associativity.label ++ "  " ++
    " ".intercalate l.operators ++ "\n"

def table : String :=
  "=== Productions ===\n" ++
    String.join (productions.zipIdx.map fun (p, number) => p.row number) ++
    "\n=== Precedence (lowest first) ===\n" ++
    String.join (Level.all.map levelRow)

end Grammar
end Reckon
