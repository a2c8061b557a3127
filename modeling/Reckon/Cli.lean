import Reckon.Session

/-!
The command line and what the program shows. Arguments are two flags, a request for the version,
and at most one plain argument, in any order; they are read from left to right, and a request for
the version ends the reading. Results go to standard output, warnings and errors to standard
error; in conversation an assignment is echoed as well.
-/

set_option autoImplicit false

namespace Reckon
namespace Cli

inductive Command where
  | version
  | table
  | runFile (path : String)
  | runSource (source : String)
  | interactive
  | invalid
  deriving DecidableEq, Repr

structure Options where
  file : Bool
  table : Bool
  plain : Option String
  deriving DecidableEq, Repr

inductive Reading where
  | options (o : Options)
  | version
  | invalid
  deriving DecidableEq, Repr

namespace Options

def empty : Options := ⟨false, false, none⟩

def setFile (o : Options) : Reading :=
  if o.file then .invalid else .options { o with file := true }

def setTable (o : Options) : Reading :=
  if o.table then .invalid else .options { o with table := true }

def setPlain (o : Options) (argument : String) : Reading :=
  match o.plain with
  | none => .options { o with plain := some argument }
  | some _ => .invalid

def flag (o : Options) (letter : Char) : Reading :=
  if letter = 'f' then o.setFile
  else if letter = 't' then o.setTable
  else if letter = 'V' then .version
  else .invalid

def flags (o : Options) : List Char → Reading
  | [] => .options o
  | letter :: letters =>
    match o.flag letter with
    | .options o => o.flags letters
    | other => other

def argument (o : Options) (text : String) : Reading :=
  match text.toList with
  | '-' :: '-' :: name =>
    if name = "file".toList then o.setFile
    else if name = "table".toList then o.setTable
    else if name = "version".toList then .version
    else .invalid
  | '-' :: letter :: letters => o.flags (letter :: letters)
  | _ => o.setPlain text

def plainOnly (o : Options) : List String → Reading
  | [] => .options o
  | text :: rest =>
    match o.setPlain text with
    | .options o => o.plainOnly rest
    | other => other

def arguments (o : Options) : List String → Reading
  | [] => .options o
  | text :: rest =>
    if text = "--" then o.plainOnly rest
    else match o.argument text with
      | .options o => o.arguments rest
      | other => other

def command (o : Options) : Command :=
  if o.table then .table
  else match o.plain with
    | none => .interactive
    | some text => if o.file then .runFile text else .runSource text

end Options

def Command.ofArgs (args : List String) : Command :=
  match Options.empty.arguments args with
  | .options o => o.command
  | .version => .version
  | .invalid => .invalid

inductive Emit where
  | out (text : String)
  | err (text : String)
  deriving DecidableEq, Repr

namespace Emit

def out? : Emit → Option String
  | out text => some text
  | err _ => none

def err? : Emit → Option String
  | out _ => none
  | err text => some text

end Emit

def warnings (ds : List Diagnostic) : List Emit :=
  ds.map fun d => .err ("Warning: " ++ d.message ++ "\n")

def outcome (echo : Bool) : Outcome → List Emit
  | .empty => []
  | .assigned name v => if echo then [.out (name ++ " = " ++ v.text ++ "\n")] else []
  | .printed v => [.out ("Result: " ++ v.text ++ "\n")]

def result (echo : Bool) (heading : String) (ds : List Diagnostic) (r : LineResult) : List Emit :=
  warnings ds ++
    match r with
    | .ok o => outcome echo o
    | .error e => [.err (heading ++ e.message ++ "\n")]

def report (r : Report) : List Emit :=
  result false ("Error on line " ++ toString r.line ++ ": ") r.diagnostics r.result

def batch (source : List Char) : List Emit :=
  ((Session.fresh false).runScript source).1.flatMap report

def banner : Emit := .out "Interactive interpreter mode. Type 'exit' to exit.\n"

def prompt : Emit := .out "> "

/-- The word that ends a conversation, in capitals or not, with blank space around it or not. -/
def isExit (line : List Char) : Bool := (Text.trim line).map Char.toLower == "exit".toList

def turn? (s : Session) (line : List Char) : Option (List Emit × Session) :=
  if isExit line then none
  else
    let (r, s) := s.execute line
    let (ds, s) := s.takeDiagnostics
    some (result s.interactive "Error: " ds r, s)

/-- A conversation over the lines to come; every line is asked for, the end included. -/
def turns (s : Session) : List (List Char) → List Emit × Session
  | [] => ([prompt], s)
  | line :: lines =>
    match turn? s line with
    | none => ([prompt], s)
    | some (emits, s) =>
      let (more, s) := turns s lines
      (prompt :: emits ++ more, s)

def conversation (input : List UInt8) : List Emit :=
  banner :: (turns (Session.fresh true) (Text.sourceLines input)).1

structure Run where
  code : UInt32
  emits : List Emit

namespace Run

def output (r : Run) : String := String.join (r.emits.filterMap Emit.out?)

def errors (r : Run) : String := String.join (r.emits.filterMap Emit.err?)

end Run

def runFile (path : String) : Option (List UInt8) → Run
  | some bytes => ⟨0, batch (Text.decode bytes)⟩
  | none =>
    ⟨1, [.err ("Failed to read the input file '" ++ path ++
      "'. Perhaps this file does not exist?\n")]⟩

def Command.run (input : List UInt8) (file : Option (List UInt8)) : Command → Run
  | .version => ⟨0, [.out "cxcalc 0.1.0\n"]⟩
  | .table => ⟨0, [.out Grammar.table]⟩
  | .runFile path => Cli.runFile path file
  | .runSource source => ⟨0, batch source.toList⟩
  | .interactive => ⟨0, conversation input⟩
  | .invalid => ⟨2, []⟩

end Cli
end Reckon
