import Reckon.Statement
import Reckon.Text

/-!
Sessions: lines are read and run one after another over one store. Only an assignment that
succeeds changes the store, and warnings pile up until they are taken. A script is run line by
line, and each line gives a report.
-/

set_option autoImplicit false

namespace Reckon

inductive LineError where
  | reading (e : SyntaxError)
  | running (e : EvalError)
  deriving DecidableEq, Repr

def LineError.message : LineError → String
  | .reading e => e.message
  | .running e => e.message

inductive Outcome where
  | empty
  | assigned (name : String) (value : Value)
  | printed (value : Value)
  deriving DecidableEq, Repr

def Outcome.printed? : Outcome → Option Value
  | .printed v => some v
  | _ => none

abbrev LineResult := Except LineError Outcome

structure Execution where
  result : LineResult
  store : Store
  log : List Diagnostic

def Statement.run (store : Store) (log : List Diagnostic) (s : Statement) : Execution :=
  match Machine.run store log s.code with
  | (.error e, log) => ⟨.error (.running e), store, log⟩
  | (.ok v, log) =>
    match s with
    | .assign name _ => ⟨.ok (.assigned name v), store.set name v, log⟩
    | .print _ => ⟨.ok (.printed v), store, log⟩

/-- Reads and runs a line. A line of blank space does nothing at all, and every unknown
character of any other line is reported, wherever reading stopped. -/
def runLine (store : Store) (log : List Diagnostic) (line : List Char) : Execution :=
  if line.all Text.isBlank then ⟨.ok .empty, store, log⟩
  else
    let log := log ++ (Scan.unknowns line).map .unknown
    match Statement.ofLine line with
    | .error e => ⟨.error (.reading e), store, log⟩
    | .ok s => s.run store log

structure Session where
  store : Store
  pending : List Diagnostic
  interactive : Bool

structure Report where
  line : Nat
  result : LineResult
  /-- Everything pending after the line. -/
  diagnostics : List Diagnostic

namespace Session

def fresh (interactive : Bool) : Session := ⟨.empty, [], interactive⟩

def execute (s : Session) (line : List Char) : LineResult × Session :=
  let e := runLine s.store s.pending line
  (e.result, { s with store := e.store, pending := e.log })

def takeDiagnostics (s : Session) : List Diagnostic × Session :=
  (s.pending, { s with pending := [] })

def report (s : Session) (number : Nat) (line : List Char) : Report × Session :=
  let (result, s) := s.execute line
  let (diagnostics, s) := s.takeDiagnostics
  (⟨number, result, diagnostics⟩, s)

def reports (s : Session) (number : Nat) : List (List Char) → List Report × Session
  | [] => ([], s)
  | line :: lines =>
    let (r, s) := s.report number line
    let (rs, s) := s.reports (number + 1) lines
    (r :: rs, s)

def runScript (s : Session) (source : List Char) : List Report × Session :=
  s.reports 1 (Text.lines source)

end Session
end Reckon
