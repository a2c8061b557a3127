import Reckon.Store
import Reckon.Token

/-!
Code: an expression in postfix order, operands before the operator that takes them, and its run on
a stack of values. A variable that was never assigned reads as zero and leaves a note; the notes of
a run that fails are kept. An expression tree has a value of its own, found from the leaves up and
from left to right; running its code finds the same value and leaves the same notes.
-/

set_option autoImplicit false

namespace Reckon

inductive Instr where
  | real (x : Binary64)
  | complex (z : Complex)
  | load (name : String)
  | negate
  | root
  | binary (op : Operator)
  deriving DecidableEq, Repr

namespace Instr

def operands : Instr → Nat
  | real _ | complex _ | load _ => 0
  | negate | root => 1
  | binary _ => 2

def effect : Instr → Int
  | real _ | complex _ | load _ => 1
  | negate | root => 0
  | binary _ => -1

theorem effect_eq (i : Instr) : i.effect = 1 - i.operands := by cases i <;> rfl

def chars : Instr → List Char
  | real x => x.chars
  | complex z => z.literalChars
  | load name => name.toList
  | negate => ['n', 'e', 'g']
  | root => ['s', 'q', 'r', 't']
  | binary op => [op.symbol]

end Instr

abbrev Code := List Instr

namespace Code

/-- The total change in depth, negative when operands are missing. -/
def depth : Code → Int
  | [] => 0
  | i :: code => i.effect + depth code

@[simp] theorem depth_append (c d : Code) : depth (c ++ d) = depth c + depth d := by
  induction c with
  | nil => simp [depth]
  | cons i c ih => simp [depth, ih, Int.add_assoc]

def chars (code : Code) : List Char := [' '].intercalate (code.map Instr.chars)

def text (code : Code) : String := String.ofList code.chars

end Code

inductive Diagnostic where
  | unknown (u : Unknown)
  | undefined (name : String)
  deriving DecidableEq, Repr

def Diagnostic.message : Diagnostic → String
  | .unknown u => u.message
  | .undefined name => "Variable '" ++ name ++ "' not defined, using 0."

namespace Machine

def load (store : Store) (name : String) : Value × List Diagnostic :=
  match store.get? name with
  | some v => (v, [])
  | none => (.real 0, [.undefined name])

/-- Performs one instruction, the first value of the stack being its top. -/
def step (store : Store) (position : Nat) (stack : List Value) :
    Instr → Except EvalError (List Value) × List Diagnostic
  | .real x => (.ok (.real x :: stack), [])
  | .complex z => (.ok (.complex z :: stack), [])
  | .load name => (.ok ((load store name).1 :: stack), (load store name).2)
  | .negate =>
    match stack with
    | v :: rest => (.ok (v.neg :: rest), [])
    | [] => (.error (.missingOperand position), [])
  | .root =>
    match stack with
    | v :: rest => (.ok (v.sqrt :: rest), [])
    | [] => (.error (.missingOperand position), [])
  | .binary op =>
    match stack with
    | right :: left :: rest => ((Value.apply op left right).map (· :: rest), [])
    | _ => (.error (.missingOperand position), [])

def runFrom (store : Store) :
    Nat → List Value → List Diagnostic → Code → Except EvalError Value × List Diagnostic
  | _, [v], log, [] => (.ok v, log)
  | _, stack, log, [] => (.error (.leftover stack.length), log)
  | position, stack, log, i :: code =>
    match step store position stack i with
    | (.error e, notes) => (.error e, log ++ notes)
    | (.ok stack, notes) => runFrom store (position + 1) stack (log ++ notes) code

def run (store : Store) (log : List Diagnostic) (code : Code) :
    Except EvalError Value × List Diagnostic :=
  runFrom store 0 [] log code

end Machine

inductive Expr where
  | real (x : Binary64)
  | complex (z : Complex)
  | load (name : String)
  | negate (e : Expr)
  | root (e : Expr)
  | binary (op : Operator) (left right : Expr)
  deriving DecidableEq, Repr

namespace Expr

def code : Expr → Code
  | real x => [.real x]
  | complex z => [.complex z]
  | load name => [.load name]
  | negate e => e.code ++ [.negate]
  | root e => e.code ++ [.root]
  | binary op left right => left.code ++ right.code ++ [.binary op]

@[simp] theorem depth_code (e : Expr) : Code.depth e.code = 1 := by
  induction e with
  | real x => rfl
  | complex z => rfl
  | load name => rfl
  | negate e ih => simp only [code, Code.depth_append, ih]; rfl
  | root e ih => simp only [code, Code.depth_append, ih]; rfl
  | binary op left right ihl ihr => simp only [code, Code.depth_append, ihl, ihr]; rfl

/-- The value of a tree and the notes left on the way; the first failure ends the work. -/
def eval (store : Store) : Expr → Except EvalError Value × List Diagnostic
  | real x => (.ok (.real x), [])
  | complex z => (.ok (.complex z), [])
  | load name =>
    match store.get? name with
    | some v => (.ok v, [])
    | none => (.ok (.real 0), [.undefined name])
  | negate e => ((e.eval store).1.map Value.neg, (e.eval store).2)
  | root e => ((e.eval store).1.map Value.sqrt, (e.eval store).2)
  | binary op left right =>
    match left.eval store with
    | (.error err, notes) => (.error err, notes)
    | (.ok v, notes) =>
      match right.eval store with
      | (.error err, more) => (.error err, notes ++ more)
      | (.ok w, more) => (Value.apply op v w, notes ++ more)

theorem runFrom_code_append (store : Store) (e : Expr) (position : Nat) (stack : List Value)
    (log : List Diagnostic) (rest : Code) :
    Machine.runFrom store position stack log (e.code ++ rest) =
      match e.eval store with
      | (.error err, notes) => (.error err, log ++ notes)
      | (.ok v, notes) =>
        Machine.runFrom store (position + e.code.length) (v :: stack) (log ++ notes) rest := by
  induction e generalizing position stack log rest with
  | real x => simp [code, eval, Machine.runFrom, Machine.step]
  | complex z => simp [code, eval, Machine.runFrom, Machine.step]
  | load name =>
    cases h : store.get? name <;> simp [code, eval, Machine.runFrom, Machine.step, Machine.load, h]
  | negate e ih =>
    rw [code, List.append_assoc, ih]
    rcases h : e.eval store with ⟨_ | v, notes⟩ <;>
      simp [eval, h, Except.map, Machine.runFrom, Machine.step, Nat.add_assoc]
  | root e ih =>
    rw [code, List.append_assoc, ih]
    rcases h : e.eval store with ⟨_ | v, notes⟩ <;>
      simp [eval, h, Except.map, Machine.runFrom, Machine.step, Nat.add_assoc]
  | binary op left right ihl ihr =>
    rw [code, List.append_assoc, List.append_assoc, ihl]
    rcases hl : left.eval store with ⟨_ | v, notes⟩
    · simp [eval, hl]
    · simp only [ihr]
      rcases hr : right.eval store with ⟨_ | w, more⟩
      · simp [eval, hl, hr]
      · rcases ha : Value.apply op v w with _ | r <;>
          simp [eval, hl, hr, ha, Except.map, Machine.runFrom, Machine.step, Nat.add_assoc]

end Expr
end Reckon
