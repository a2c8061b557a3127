import Reckon.Cli

/-!
The program itself: reads files and standard input, and writes what the command shows.
-/

set_option autoImplicit false

namespace Reckon
namespace Cli

def Emit.write : Emit → IO Unit
  | .out text => do
    let stdout ← IO.getStdout
    stdout.putStr text
    stdout.flush
  | .err text => IO.eprint text

partial def readPiece (input : IO.FS.Stream) (read : Array UInt8) : IO (Array UInt8) := do
  let bytes ← input.read 1
  match bytes.toList with
  | [] => return read
  | b :: _ => if b = 10 then return read.push b else readPiece input (read.push b)

partial def converse (input : IO.FS.Stream) (s : Session) : IO Unit := do
  prompt.write
  let piece ← readPiece input #[]
  if piece.isEmpty then return
  match turn? s (Text.sourceLine piece.toList) with
  | none => return
  | some (emits, s) =>
    emits.forM Emit.write
    converse input s

def readFile? (path : String) : IO (Option (List UInt8)) := do
  try
    let bytes ← IO.FS.readBinFile path
    return some bytes.toList
  catch _ => return none

def program (args : List String) : IO UInt32 := do
  match Command.ofArgs args with
  | .interactive =>
    banner.write
    converse (← IO.getStdin) (Session.fresh true)
    return 0
  | .runFile path => finish (runFile path (← readFile? path))
  | command => finish (command.run [] none)
where
  finish (r : Run) : IO UInt32 := do
    r.emits.forM Emit.write
    return r.code

end Cli
end Reckon

def main (args : List String) : IO UInt32 := Reckon.Cli.program args
