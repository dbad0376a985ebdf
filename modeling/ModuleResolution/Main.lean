import ModuleResolution.Command.Run
import ModuleResolution.Files.Tree

/-!
# The program

Runs a command on the files of a disk.  A command is run on the answers that are known so far; what
it asked for beyond them is read from the disk, and it is run again, until it has asked for nothing
new.
-/

namespace ModuleResolution

namespace Command

/-- The number of an error of the disk, which may come with its sign changed. -/
def errorNumber (code : UInt32) : Nat :=
  if code.toNat < UInt32.size / 2 then code.toNat else UInt32.size - code.toNat

/-- Why the disk gave no text. -/
def readFault (e : IO.Error) : ReadFault :=
  match e with
  | .noFileOrDirectory .. => .missing
  | .invalidArgument _ code _ =>
    if errorNumber code = 36 then .unreadable FileTree.tooLong
    else .unreadable (toString e)
  | .inappropriateType _ code details | .permissionDenied _ code details =>
    .unreadable (details.capitalize ++ " (os error " ++ toString (errorNumber code) ++ ")")
  | _ => .unreadable (toString e)

/-- Reads a file of the disk. -/
def readDisk (path : String) : IO (Except ReadFault String) := do
  try
    match String.fromUTF8? (← IO.FS.readBinFile path) with
    | some text => return .ok text
    | none => return .error (.unreadable FileTree.noText)
  catch e => return .error (readFault e)

/-- The keys among some requests that have no answer yet. -/
def unanswered (answers : List (Key × Except ReadFault String)) (calls : List Call) : List Key :=
  calls.filterMap fun call =>
    match call with
    | .read key _ => if answers.any (·.1 == key) then none else some key
    | .items .. => none

/-- Runs a request on the disk, from the answers known so far. -/
partial def runOnDisk (cwd : String) (request : Request)
    (answers : List (Key × Except ReadFault String)) : IO Outcome := do
  let (outcome, calls) := run (fun _ => .ofAnswers answers) cwd request
  match unanswered answers calls with
  | [] => return outcome
  | keys =>
    let more ← keys.mapM fun key => do return (key, ← readDisk key.path)
    runOnDisk cwd request (answers ++ more)

/-- Prints what a request has come to. -/
def Outcome.print (outcome : Outcome) : IO Outcome := do
  let refusal? ← try
      let output ← IO.getStdout
      output.putStr outcome.text
      output.flush
      pure none
    catch e => pure (some (toString e))
  let outcome := outcome.written refusal?
  outcome.notes.forM fun note => do (← IO.getStderr).putStr note.text
  return outcome

end Command

end ModuleResolution

open ModuleResolution.Command in
/-- Runs the program. -/
def main (arguments : List String) : IO UInt32 := do
  match Request.ofArguments arguments with
  | .error usage =>
    let stream ← if usage.exitCode = 0 then IO.getStdout else IO.getStderr
    stream.putStr usage.text
    return usage.exitCode.toUInt32
  | .ok request =>
    let outcome ← runOnDisk (← IO.currentDir).toString request []
    return (← outcome.print).exitCode.toUInt32
