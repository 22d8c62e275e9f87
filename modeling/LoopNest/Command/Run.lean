import LoopNest.Command.Request
import LoopNest.Demo
import LoopNest.Kernel.Artifact
import LoopNest.Kernel.Identity
import LoopNest.Target.File

/-!
# What the command line does

A request is answered without touching the world: a target file has been read already, and a file to
be written is part of the outcome.

* `Command.Outcome`: exit code, both output streams and a file to write;
* `Command.Request.run`: the answer to a request;
* `Command.Outcome.ofStop`: the answer to arguments that are no request.
-/

namespace LoopNest.Command

/-- What a run of the program leaves behind. The error stream is to be written after the file. -/
structure Outcome where
  code : Nat
  output : String
  errors : String
  /-- Path and text of a file to write. -/
  file : Option (String × String)
deriving DecidableEq

namespace Outcome

/-- A run that succeeds. -/
def success (output : String) : Outcome := ⟨0, output, "", none⟩

/-- A run that fails with a message. -/
def failure (message : String) : Outcome := ⟨1, "", "error: " ++ message ++ "\n", none⟩

/-- The file of an outcome could not be written. -/
def notWritten (path reason : String) : Outcome :=
  failure ("cannot write '" ++ path ++ "': " ++ reason)

/-- A short account of the commands. -/
def usage : String :=
  "Usage: stagir [OPTIONS] <COMMAND>\n\n" ++
  "Commands:\n" ++
  "  targets    List built-in codegen targets\n" ++
  "  show       Print the lowered IR of a demo kernel\n" ++
  "  build      Lower a demo kernel and emit target source\n" ++
  "  build-all  Build every demo kernel and print content hashes\n" ++
  "  help       Print this message\n"

/-- The outcome where the arguments are no request. -/
def ofStop : Stop → Outcome
  | .help => success usage
  | .version => success "stagir 0.1.0\n"
  | .usage => ⟨2, "", usage, none⟩

/-- The outcome of a computation that may fail. -/
def ofExcept (x : Except Error Outcome) : Outcome :=
  match x with
  | .ok o => o
  | .error e => failure e.message

end Outcome

/-- A text filled up with blanks to eight characters. -/
def padded (s : String) : String :=
  s ++ String.ofList (List.replicate (8 - s.length) ' ')

/-- One line about a target. -/
def targetLine (t : Target) : String :=
  padded t.name ++ " " ++ t.displayName ++ " (zigzag: " ++
    (if t.supportsZigzag then "yes" else "no") ++ ")\n"

/-- A kernel with its hash above. -/
def shown (k : Kernel) : String :=
  "// kernel " ++ k.signature.name ++ " (" ++ k.hash ++ ")\n" ++ k.body.text

/-- A built kernel, to the output or to a file. -/
def delivered (output : Option String) (json : Bool) (k : Kernel) : Outcome :=
  let text := if json then k.artifact else k.source.getD ""
  match output with
  | none => .success text
  | some path =>
    ⟨0, "", "Built " ++ k.signature.name ++ " -> " ++ path ++ "\n", some (path, text)⟩

/-- One line about a kernel that was built, or not. -/
def builtLine (name : String) : Except Error Kernel → String
  | .ok k => padded name ++ " " ++ k.hash ++ "\n"
  | .error e => padded name ++ " error: " ++ e.message ++ "\n"

namespace Request

/-- The target file that a request names. -/
def targetFile? : Request → Option String
  | .build _ _ file _ _ _ => file
  | _ => none

/-- Build a demonstration for a named target, or for that of a file with the given content. The
demonstration is looked up before the target. -/
def built (demo target : String) (file : Option String) (size : Word)
    (content : Except String ByteArray) : Except Error Kernel := do
  let d ← Demo.named demo size
  match file with
  | some path => do
    let t ← Target.load path content
    d.buildFor t
  | none => d.build target

/-- The answer to a request. `content` is that of the target file, if the request names one. -/
def run (content : Except String ByteArray) : Request → Outcome
  | .targets => .success (String.join (Target.builtin.map targetLine))
  | .show demo size => .ofExcept do
    let d ← Demo.named demo size
    let k ← d.lower
    return .success (shown k)
  | .build demo target file output size json => .ofExcept do
    return delivered output json (← built demo target file size content)
  | .buildAll target size => .ofExcept do
    let kernels ← Demo.names.mapM fun name => Demo.named name size
    let results := kernels.map fun d => (d.build target : Except Error Kernel)
    let failed := results.any fun r => r.toOption.isNone
    let lines := List.zipWith builtLine Demo.names results
    return ⟨if failed then 1 else 0, String.join lines, "", none⟩

end Request

end LoopNest.Command
