import Simian.CommandLine.Arguments
import Simian.Failure

/-!
# Settings of a run

A setting comes from the arguments, or else from the environment, or else it has its
default. An environment variable that is empty counts as unset, and all of them do when
the arguments say to ignore the environment.
-/
namespace Simian

/-- What each environment variable is set to. -/
abbrev Environment : Type := String → Option String

namespace Environment

def engine : String := "GIBBON_ENGINE"

def maxDepth : String := "GIBBON_MAX_DEPTH"

def stackSize : String := "GIBBON_STACK_SIZE"

/-- What to log, the first of them that is set. -/
def logFilters : List String := ["GIBBON_LOG", "RUST_LOG"]

/-- All variables that settings come from. -/
def names : List String := [engine, maxDepth, stackSize] ++ logFilters

def ofList (pairs : List (String × String)) : Environment := fun name => pairs.lookup name

/-- The value of a variable that is set and not empty. -/
def nonempty? (environment : Environment) (name : String) : Option String :=
  (environment name).filter fun value => !value.isEmpty

/-- A setting from the arguments or from the environment, where `read?` makes sense of its text. -/
def setting {α : Type} (environment : Environment) (name : String) (argument : Option α)
    (read? : String → Option α) (default : α) : Except Failure α :=
  match argument, environment.nonempty? name with
  | some value, _ => .ok value
  | none, none => .ok default
  | none, some text =>
    match read? text with
    | some value => .ok value
    | none => .error (.invalidSetting name text)

end Environment

/-- The engine with this name, in letters of either case. -/
def EngineKind.ofText? (text : String) : Option EngineKind :=
  EngineKind.ofName? ((Text.trimBlank text).map Char.toLower)

structure Settings where
  limits : SessionLimits
  verbosity : Nat
  quiet : Bool
  dump : Bool
  ignoreEnvironment : Bool
  /-- What the environment says to log. -/
  environmentFilter : Option String
  deriving Repr, DecidableEq, Inhabited

namespace Settings

/-- The settings that the arguments and the environment give. -/
def resolve (arguments : Arguments) (environment : Environment) : Except Failure Settings := do
  let environment : Environment :=
    if arguments.ignoreEnvironment then fun _ => none else environment
  let default := SessionLimits.default
  let engine ← environment.setting Environment.engine arguments.engine EngineKind.ofText?
    default.engine
  let maxDepth ← environment.setting Environment.maxDepth arguments.maxDepth Limit.ofString?
    default.maxDepth
  let stackSize ← environment.setting Environment.stackSize arguments.stackSize Limit.ofString?
    default.stackSize
  return {
    limits := ⟨engine, maxDepth, stackSize, default.maxFrames⟩
    verbosity := arguments.verbosity
    quiet := arguments.quiet
    dump := arguments.dump
    ignoreEnvironment := arguments.ignoreEnvironment
    environmentFilter := Environment.logFilters.findSome? environment.nonempty? }

/-- What to log. Arguments that ask for detail count before the environment. -/
def logFilter (settings : Settings) : String :=
  match settings.verbosity with
  | 0 => settings.environmentFilter.getD "warn"
  | 1 => "info"
  | 2 => "debug"
  | _ => "trace"

/-- The level that the filter names. A filter of another form admits nothing. -/
def logLevel (settings : Settings) : Level :=
  (Level.ofName? (settings.logFilter.map Char.toUpper)).getD .off

end Settings

end Simian
