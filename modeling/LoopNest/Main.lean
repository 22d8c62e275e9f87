import LoopNest.Command.Run

/-!
# The program

Reads the target file that is asked for, runs the command, and delivers what it leaves.

* `main`.
-/

namespace LoopNest.Command

/-- The content of a file, or the reason why there is none. -/
def fileContent (path : String) : IO (Except String ByteArray) := do
  try
    return .ok (← IO.FS.readBinFile path)
  catch e =>
    return .error (toString e)

/-- Write an outcome to the file and the streams, and give the exit code. -/
def deliver (o : Outcome) : IO UInt32 := do
  IO.print o.output
  IO.eprint o.errors
  return o.code.toUInt32

end LoopNest.Command

open LoopNest Command

/-- The command line. -/
def main (args : List String) : IO UInt32 := do
  match parse args with
  | .error stop => deliver (.ofStop stop)
  | .ok request =>
    let content ←
      match request.targetFile? with
      | some path => fileContent path
      | none => pure (.error "")
    let outcome := request.run content
    match outcome.file with
    | none => deliver outcome
    | some (path, text) =>
      try
        IO.FS.writeFile path text
        deliver outcome
      catch e =>
        deliver (.notWritten path (toString e))
