import LoopNest.Command.Arguments

/-!
# What the command line asks for

* `Command.Request`: the four commands;
* `Command.parse`: arguments as a request.
-/

namespace LoopNest.Command

/-- A request with everything it needs. -/
inductive Request where
  /-- List the built-in targets. -/
  | targets
  /-- Print a lowered demonstration kernel. -/
  | show (demo : String) (size : Word)
  /-- Emit a demonstration kernel for a target, or for the target that a file describes. -/
  | build (demo target : String) (targetFile output : Option String) (size : Word) (json : Bool)
  /-- Build every demonstration kernel and print their hashes. -/
  | buildAll (target : String) (size : Word)
deriving DecidableEq

/-- The switch for a report on the work, known everywhere. -/
def verbose : Flag := ⟨"verbose", some 'v', none⟩

/-- The size of a demonstration. -/
def sizeFlag : Flag := ⟨"size", none, some .size⟩

/-- The name of a target. -/
def targetFlag : Flag := ⟨"target", none, some .text⟩

/-- What may come before the name of a command. -/
def top : Grammar := ⟨[verbose], 0, true⟩

/-- What may come after the name of a command. -/
def grammar? (command : String) : Option Grammar :=
  if command = "targets" then some ⟨[verbose], 0, false⟩
  else if command = "show" then some ⟨[verbose, sizeFlag], 1, false⟩
  else if command = "build" then
    some ⟨[verbose, targetFlag, ⟨"target-config", none, some .path⟩, sizeFlag,
      ⟨"output", some 'o', some .path⟩, ⟨"json", none, none⟩], 1, false⟩
  else if command = "build-all" then some ⟨[verbose, targetFlag, sizeFlag], 0, false⟩
  else none

/-- The size given, or four. -/
def Given.size (g : Given) : Word := ((g.value? "size").bind size?).getD 4

/-- The target given, or portable C. -/
def Given.target (g : Given) : String := (g.value? "target").getD "c"

/-- A command with what was given to it. The name of the demonstration must be there. -/
def request (command : String) (g : Given) : Except Stop Request :=
  match command, g.plain with
  | "targets", [] => .ok .targets
  | "show", [demo] => .ok (.show demo g.size)
  | "build", [demo] =>
    .ok (.build demo g.target (g.value? "target-config") (g.value? "output") g.size (g.has "json"))
  | "build-all", [] => .ok (.buildAll g.target g.size)
  | _, _ => .error .usage

/-- A question for help: about the program, or about one command. -/
def helpOn : List String → Stop
  | [] => .help
  | [command] => if (grammar? command).isSome ∨ command = "help" then .help else .usage
  | _ => .usage

/-- Arguments as a request. -/
def parse (args : List String) : Except Stop Request := do
  let (_, rest) ← top.read true args
  match rest with
  | [] => throw .usage
  | command :: rest =>
    if command = "help" then throw (helpOn rest)
    match grammar? command with
    | none => throw .usage
    | some g => do
      let (given, _) ← g.read false rest
      request command given

end LoopNest.Command
