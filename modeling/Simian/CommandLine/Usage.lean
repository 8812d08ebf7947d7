import Simian.CommandLine.Arguments
import Simian.Prompt

/-!
# What is said of the arguments
-/
namespace Simian

/-- How to call the program. -/
def usage : String := "\n".intercalate [
  "Run Gibbon programs or start an interactive prompt",
  "",
  "Usage: gibbon [OPTIONS] [SCRIPT]",
  "",
  "  [SCRIPT]          Script file to run",
  "  -c CODE           Program passed in as a string",
  "  --engine NAME     Execution backend, vm or eval [env: GIBBON_ENGINE]",
  "  -q, --quiet       Do not print the banner on interactive startup",
  "  -v, --verbose     Log more, and still more if repeated",
  "  --max-depth N     Maximum expression nesting depth [env: GIBBON_MAX_DEPTH]",
  "  --stack-size N    Value stack capacity [env: GIBBON_STACK_SIZE]",
  "  --dump            Print the compiled bytecode instead of running it",
  "  -E                Ignore environment variables",
  "  -h, --help        Print help",
  "  -V, --version     Print version",
  ""]

/-- What the program prints instead of running. -/
def Refusal.message : Refusal → String
  | help => usage
  | version => s!"gibbon {Prompt.version}\n"
  | conflict => "error: an argument cannot be used again or with another one\n"
  | invalidValue => "error: a value is missing or not allowed\n"
  | unexpectedValue => "error: unexpected value for an argument that takes none\n"
  | unknownArgument => "error: unexpected argument\n"
  | invalidLimit => "error: a limit must be a positive number below 2^64\n"

end Simian
