import Simian.Bytecode.Listing
import Simian.Value

/-!
# Compiled units

A unit has its own instructions and the constants that they and all functions compiled
so far refer to. Its listing shows the instructions of the unit and then those of every
function among the constants.
-/
namespace Simian

structure Bytecode where
  code : Code
  /-- All constants so far, those of earlier units first. -/
  constants : Array Value
  deriving Inhabited

namespace Bytecode

/-- Appends the listings of the functions among the constants, the first of which has the
number `index`. -/
def writeFunctions (out : String) (index : Nat) : List Value → String
  | [] => out
  | .compiled _ body :: rest =>
    let title := s!"\n== constant {index}: {body.displayName} (params: {body.numParameters}" ++
      s!", locals: {body.numLocals}) ==\n"
    writeFunctions (Code.writeListing body.code (out ++ title) 0) (index + 1) rest
  | _ :: rest => writeFunctions out (index + 1) rest

def listing (bytecode : Bytecode) : String :=
  writeFunctions (Code.writeListing bytecode.code "== main ==\n" 0) 0 bytecode.constants.toList

end Bytecode

end Simian
