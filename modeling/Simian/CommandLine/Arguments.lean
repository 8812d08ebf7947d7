import Simian.CommandLine.Limit
import Simian.Session

/-!
# Arguments of a call

Options may be long or short, short ones may be grouped, and a value may be attached
to its option or follow it. After `--` nothing is an option.

A value is checked only when the next argument has been looked at: the argument after
an option could be its value, and one that no option has is refused before anything
else. A `Reading` therefore keeps the option or script read last as pending.
-/
namespace Simian

/-- Why the arguments lead to no run. Asking for help or for the version is such a reason. -/
inductive Refusal where
  | help | version
  /-- An argument is given twice, or code and a script are both given. -/
  | conflict
  /-- A value is missing or not among those allowed. -/
  | invalidValue
  /-- A value is attached to an option that takes none. -/
  | unexpectedValue
  | unknownArgument
  /-- A value is not a limit. -/
  | invalidLimit
  deriving Repr, DecidableEq, Inhabited

/-- What the program exits with. -/
def Refusal.exitCode : Refusal → Nat
  | help | version => 0
  | _ => 2

/-- What a call asks for. -/
structure Arguments where
  script : Option String
  code : Option String
  engine : Option EngineKind
  maxDepth : Option Nat
  stackSize : Option Nat
  quiet : Bool
  /-- How often more detail is asked for. -/
  verbosity : Nat
  dump : Bool
  ignoreEnvironment : Bool
  deriving Repr, DecidableEq, Inhabited

/-- Options without a value. -/
inductive Flag where
  | quiet | verbose | dump | ignoreEnvironment | help | version
  deriving Repr, DecidableEq, Inhabited

/-- What takes a value: four options, and the script. -/
inductive Parameter where
  | script | code | engine | maxDepth | stackSize
  deriving Repr, DecidableEq, Inhabited

namespace Arguments

def empty : Arguments := ⟨none, none, none, none, none, false, 0, false, false⟩

/-- The largest count that is kept of a repeated flag. -/
def maxVerbosity : Nat := 255

/-- The arguments with the flag raised. -/
def raise (arguments : Arguments) : Flag → Except Refusal Arguments
  | .quiet =>
    if arguments.quiet then .error .conflict else .ok { arguments with quiet := true }
  | .verbose =>
    .ok { arguments with verbosity := min (arguments.verbosity + 1) maxVerbosity }
  | .dump => if arguments.dump then .error .conflict else .ok { arguments with dump := true }
  | .ignoreEnvironment =>
    if arguments.ignoreEnvironment then .error .conflict
    else .ok { arguments with ignoreEnvironment := true }
  | .help => .error .help
  | .version => .error .version

/-- Whether the parameter has its value already. -/
def has (arguments : Arguments) : Parameter → Bool
  | .script => arguments.script.isSome
  | .code => arguments.code.isSome
  | .engine => arguments.engine.isSome
  | .maxDepth => arguments.maxDepth.isSome
  | .stackSize => arguments.stackSize.isSome

/-- The arguments with a value for the parameter. -/
def assign (arguments : Arguments) (parameter : Parameter) (value : String) :
    Except Refusal Arguments :=
  if arguments.has parameter then .error .conflict
  else match parameter with
  | .script =>
    if value.isEmpty then .error .invalidValue else .ok { arguments with script := some value }
  | .code => .ok { arguments with code := some value }
  | .engine =>
    match EngineKind.ofName? value with
    | some engine => .ok { arguments with engine := some engine }
    | none => .error .invalidValue
  | .maxDepth =>
    match Limit.ofString? value with
    | some limit => .ok { arguments with maxDepth := some limit }
    | none => .error .invalidLimit
  | .stackSize =>
    match Limit.ofString? value with
    | some limit => .ok { arguments with stackSize := some limit }
    | none => .error .invalidLimit

end Arguments

/-- What an option turns out to be. -/
inductive Switch where
  | flag (flag : Flag)
  | parameter (parameter : Parameter)
  deriving Repr, DecidableEq, Inhabited

namespace Switch

def ofLetter? : Char → Option Switch
  | 'c' => some (.parameter .code)
  | 'q' => some (.flag .quiet)
  | 'v' => some (.flag .verbose)
  | 'E' => some (.flag .ignoreEnvironment)
  | 'h' => some (.flag .help)
  | 'V' => some (.flag .version)
  | _ => none

def ofName? : String → Option Switch
  | "engine" => some (.parameter .engine)
  | "max-depth" => some (.parameter .maxDepth)
  | "stack-size" => some (.parameter .stackSize)
  | "quiet" => some (.flag .quiet)
  | "verbose" => some (.flag .verbose)
  | "dump" => some (.flag .dump)
  | "help" => some (.flag .help)
  | "version" => some (.flag .version)
  | _ => none

end Switch

/-- Arguments read so far. -/
structure Reading where
  settled : Arguments
  /-- The parameter read last, with its value if that is known already. -/
  pending : Option (Parameter × Option String)
  deriving Repr, DecidableEq, Inhabited

namespace Reading

def empty : Reading := ⟨.empty, none⟩

/-- The arguments once the pending parameter has its value. -/
def settle (reading : Reading) : Except Refusal Arguments :=
  match reading.pending with
  | none => .ok reading.settled
  | some (_, none) => .error .invalidValue
  | some (parameter, some value) => reading.settled.assign parameter value

/-- Whether a script is given. -/
def hasScript (reading : Reading) : Bool :=
  reading.settled.script.isSome || reading.pending.any (·.1 == .script)

def flag (reading : Reading) (flag : Flag) : Except Refusal Reading := do
  return ⟨← (← reading.settle).raise flag, none⟩

/-- An option with its attached value, or without one yet. -/
def option (reading : Reading) (parameter : Parameter) (attached : Option String) :
    Except Refusal Reading := do
  let settled ← reading.settle
  match attached with
  | some value => return ⟨← settled.assign parameter value, none⟩
  | none => return ⟨settled, some (parameter, none)⟩

/-- The value after the letter of an option. An equals sign before it is not part of it. -/
def attachedValue : List Char → Option String
  | [] => none
  | '=' :: rest => some (String.ofList rest)
  | value => some (String.ofList value)

/-- A group of short options. What follows a letter that takes a value is the value. -/
def letters (reading : Reading) : List Char → Except Refusal Reading
  | [] => .ok reading
  | letter :: rest =>
    match Switch.ofLetter? letter with
    | none => .error .unknownArgument
    | some (.flag flag) => do letters (← reading.flag flag) rest
    | some (.parameter parameter) => reading.option parameter (attachedValue rest)

/-- A long option, without its dashes. -/
def long (reading : Reading) (text : List Char) : Except Refusal Reading :=
  let (name, rest) := text.span (· != '=')
  match Switch.ofName? (String.ofList name), attachedValue rest with
  | none, _ => .error .unknownArgument
  | some (.flag flag), none => reading.flag flag
  | some (.flag _), some _ => .error .unexpectedValue
  | some (.parameter parameter), attached => reading.option parameter attached

/-- An argument that is the script, because it can be nothing else. -/
def positional (reading : Reading) (text : String) : Except Refusal Reading :=
  if reading.hasScript then .error .unknownArgument
  else do return ⟨← reading.settle, some (.script, some text)⟩

/-- A text that is not an option: a value, if one is awaited, or the script. -/
def plain (reading : Reading) (text : String) : Except Refusal Reading :=
  match reading with
  | ⟨settled, some (parameter, none)⟩ => .ok ⟨settled, some (parameter, some text)⟩
  | reading => reading.positional text

/-- One argument before any `--`. -/
def argument (reading : Reading) (text : String) : Except Refusal Reading :=
  match text.toList with
  | '-' :: '-' :: name => reading.long name
  | '-' :: letter :: rest => reading.letters (letter :: rest)
  | _ => reading.plain text

/-- All arguments in turn. -/
def arguments (reading : Reading) : List String → Except Refusal Reading
  | [] => .ok reading
  | "--" :: rest => rest.foldlM positional reading
  | text :: rest => do (← reading.argument text).arguments rest

end Reading

/-- What the arguments ask for. -/
def Arguments.ofList (texts : List String) : Except Refusal Arguments := do
  let arguments ← (← Reading.empty.arguments texts).settle
  if arguments.script.isSome && arguments.code.isSome then throw .conflict
  return arguments

end Simian
