import LoopNest.Word

/-!
# Command-line arguments

Arguments are read from left to right, and the first thing that is not understood ends the reading.
Options may stand anywhere; a long one takes its value from behind `=` or from the next argument, a
short one also from the rest of its own argument. After `--` all arguments are plain. No option may
be given twice, and a value taken from the next argument does not start with a dash, unless it is a
dash alone.

* `Command.Flag`, `Command.Grammar`: what may be given;
* `Command.Given`: what was given;
* `Command.Grammar.read`: the reading of arguments.
-/

namespace LoopNest.Command

/-- What the value of an option must be. -/
inductive ValueKind where
  | text
  | path
  | size
deriving DecidableEq

/-- An option by its long name and perhaps a letter, with a value or without. -/
structure Flag where
  long : String
  short : Option Char
  value : Option ValueKind

/-- Why reading arguments ended before the last one: a question for help or for the version, or a
mistake. -/
inductive Stop where
  | help
  | version
  | usage
deriving DecidableEq

/-- The options of a command and the number of its plain arguments. -/
structure Grammar where
  flags : List Flag
  plain : Nat
  /-- The command tells the version. -/
  hasVersion : Bool

/-- Options with their values, and plain arguments in order. -/
structure Given where
  options : List (String × String)
  plain : List String

namespace Given

/-- Nothing was given. -/
def nothing : Given := ⟨[], []⟩

/-- The value of an option. -/
def value? (g : Given) (long : String) : Option String :=
  (g.options.find? fun o => o.1 = long).map Prod.snd

/-- An option was given. -/
def has (g : Given) (long : String) : Bool := (g.value? long).isSome

end Given

/-- The value of a signed decimal numeral, if it is a word. -/
def size? (s : String) : Option Word :=
  let (negative, digits) :=
    match s.toList with
    | '-' :: ds => (true, ds)
    | '+' :: ds => (false, ds)
    | ds => (false, ds)
  if digits.isEmpty || !digits.all Char.isDigit then none
  else
    let n : Nat := digits.foldl (fun n d => 10 * n + (d.toNat - '0'.toNat)) 0
    Word.ofInt? (if negative then -n else n)

/-- A value suits its option. -/
def ValueKind.accepts : ValueKind → String → Bool
  | text, _ => true
  | path, s => !s.isEmpty
  | size, s => (size? s).isSome

/-- The argument is an option: it starts with a dash and goes on. -/
def isOption (arg : String) : Bool :=
  match arg.toList with
  | '-' :: _ :: _ => true
  | _ => false

namespace Grammar

variable (g : Grammar)

/-- Note an option. It must be new, and its value must suit it. -/
def note (given : Given) (f : Flag) (value : String) : Except Stop Given :=
  if given.has f.long || !(f.value.map fun k => k.accepts value).getD true then .error .usage
  else .ok { given with options := (f.long, value) :: given.options }

/-- Note an option whose value is the next argument, and give the arguments after it. -/
def noteNext (given : Given) (f : Flag) : List String → Except Stop (Given × List String)
  | [] => .error .usage
  | arg :: rest => do
    if isOption arg then throw .usage
    return (← note given f arg, rest)

/-- A long option: its name and, after `=`, a value. -/
def long (given : Given) (body : List Char) (rest : List String) :
    Except Stop (Given × List String) := do
  let name := String.ofList (body.takeWhile (· ≠ '='))
  let value? :=
    match body.dropWhile (· ≠ '=') with
    | [] => none
    | _ :: value => some (String.ofList value)
  if name = "help" then throw (if value?.isSome then Stop.usage else Stop.help)
  if g.hasVersion && name = "version" then
    throw (if value?.isSome then Stop.usage else Stop.version)
  match g.flags.find? fun f => f.long = name with
  | none => throw Stop.usage
  | some f =>
    match f.value, value? with
    | none, none => return (← note given f "", rest)
    | none, some _ => throw Stop.usage
    | some _, some value => return (← note given f value, rest)
    | some _, none => noteNext given f rest

/-- Short options: letters one after the other, of which the last may be followed by its value. -/
def short (given : Given) (rest : List String) : List Char → Except Stop (Given × List String)
  | [] => .ok (given, rest)
  | c :: cs => do
    if c = 'h' then throw Stop.help
    if g.hasVersion && c = 'V' then throw Stop.version
    match g.flags.find? fun f => f.short = some c with
    | none => throw Stop.usage
    | some f =>
      match f.value, cs with
      | none, cs => short (← note given f "") rest cs
      | some _, [] => noteNext given f rest
      | some _, '=' :: value => return (← note given f (String.ofList value), rest)
      | some _, value => return (← note given f (String.ofList value), rest)

/-- Plain arguments, of which there may not be too many. -/
def allPlain (given : Given) (args : List String) : Except Stop Given :=
  if given.plain.length + args.length ≤ g.plain then
    .ok { given with plain := given.plain ++ args }
  else .error .usage

/-- Read arguments. With `stops`, the first plain argument ends the reading and is given back with
those after it. Every argument is read in one step. -/
def readFrom (stops : Bool) : Nat → Given → List String → Except Stop (Given × List String)
  | 0, given, args => .ok (given, args)
  | _ + 1, given, [] => .ok (given, [])
  | n + 1, given, arg :: rest =>
    match arg.toList with
    | ['-', '-'] => do return (← g.allPlain given rest, [])
    | '-' :: '-' :: body => do
      let (given, rest) ← g.long given body rest
      readFrom stops n given rest
    | '-' :: c :: cs => do
      let (given, rest) ← g.short given rest (c :: cs)
      readFrom stops n given rest
    | _ =>
      if stops then .ok (given, arg :: rest)
      else do
        let given ← g.allPlain given [arg]
        readFrom stops n given rest

/-- Read arguments; see `readFrom`. -/
def read (stops : Bool) (args : List String) : Except Stop (Given × List String) :=
  g.readFrom stops args.length .nothing args

end Grammar

end LoopNest.Command
