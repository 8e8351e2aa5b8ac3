import RiscvToolkit.CommandLine
import RiscvToolkit.Directory

/-! The program: command line, files and terminal. -/
namespace RiscvToolkit.Main
open Terminal (Piece)

def emit (pieces : List Piece) : IO Unit := do
  for piece in pieces do
    match piece with
    | .out text => IO.print text
    | .err text => IO.eprint text
  (← IO.getStdout).flush

/-- Reads files before the pure part asks for them. -/
def readAll (names : List String) : IO (List (String × Except String String)) :=
  names.mapM fun (name : String) => do
    try
      let text ← IO.FS.readFile name
      return (name, .ok text)
    catch
      | .noFileOrDirectory .. => return (name, .error Unreadable.missing.message)
      | .inappropriateType _ 21 _ => return (name, .error Unreadable.isDirectory.message)
      | .inappropriateType .. => return (name, .error Unreadable.notDirectory.message)
      | .invalidArgument .. => return (name, .error Unreadable.nameTooLong.message)
      | e => return (name, .error (toString e))

/-- Runs burst after burst and prints what each of them says. -/
partial def runLoop (limited : Bool) (e : Emulator) : IO Nat := do
  let shown := e.console.events.size
  let (outcome, e) := e.run false
  emit (Debugger.showEvents shown e)
  if outcome = .yielded && !limited then
    runLoop limited e
  else
    let (code, last) := CommandLine.conclude outcome e
    emit last
    return code

/-- A bound on the bursts of one command that none of them reaches. -/
def endless : Nat := 1 <<< 60

partial def debugLoop (session : Debugger.Session) : IO Unit := do
  let line ← (← IO.getStdin).getLine
  if line.isEmpty then return
  let response := session.feed endless line
  emit response.pieces
  if !response.quit then debugLoop response.session

end RiscvToolkit.Main

open RiscvToolkit in
def main (args : List String) : IO UInt32 := do
  let files ← Main.readAll args
  let read (name : String) : Except String String :=
    (files.lookup name).getD (.error Unreadable.missing.message)
  match CommandLine.prepare read args with
  | .finished code pieces =>
    Main.emit pieces
    return UInt32.ofNat code
  | .run e limited => return UInt32.ofNat (← Main.runLoop limited e)
  | .debug session =>
    Main.debugLoop session
    return 0
