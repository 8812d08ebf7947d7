/-!
# A journal of what the program did

Each stage notes what it does at one of two levels of detail. A journal keeps the
entries that its threshold admits, in order, and nothing else ever reads them: a
run with a journal that admits nothing gives the same answers.
-/
namespace Simian

/-- Levels of detail, the most detailed first, and `off` for no entries at all. -/
inductive Level where
  | trace | debug | info | off
  deriving Repr, DecidableEq, Inhabited

namespace Level

def rank : Level → Nat
  | trace => 0
  | debug => 1
  | info => 2
  | off => 3

def name : Level → String
  | trace => "TRACE"
  | debug => "DEBUG"
  | info => "INFO"
  | off => "OFF"

def all : List Level := [trace, debug, info, off]

def ofName? (name : String) : Option Level := all.find? (·.name == name)

end Level

structure Journal where
  /-- The most detailed level that is kept. -/
  threshold : Level
  /-- Entries kept so far, the latest first. -/
  latest : List (Level × String)
  deriving Repr, DecidableEq, Inhabited

namespace Journal

/-- A journal without entries. -/
def opened (threshold : Level) : Journal := ⟨threshold, []⟩

def admits (journal : Journal) (level : Level) : Bool :=
  journal.threshold.rank ≤ level.rank && level != .off

/-- Keeps the text, which is built only if the level is admitted. -/
@[inline] def note (journal : Journal) (level : Level) (text : Unit → String) : Journal :=
  if journal.admits level then { journal with latest := (level, text ()) :: journal.latest }
  else journal

/-- The entries in the order in which they were noted. -/
def entries (journal : Journal) : List (Level × String) := journal.latest.reverse

end Journal

end Simian
