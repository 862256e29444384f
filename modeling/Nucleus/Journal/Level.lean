/-!
# Message levels

A message has a level, and a maximum level decides which messages are wanted: those at least as
severe as the maximum. Off wants none.
-/
namespace Nucleus

/-- Levels of messages, the most severe first. -/
inductive Level
  | error | warn | info | debug | trace
deriving DecidableEq, Repr

namespace Level

def all : List Level := [error, warn, info, debug, trace]

/-- One for the most severe level, more for each level less severe. -/
def rank : Level → Nat
  | error => 1
  | warn => 2
  | info => 3
  | debug => 4
  | trace => 5

def name : Level → String
  | error => "ERROR"
  | warn => "WARN"
  | info => "INFO"
  | debug => "DEBUG"
  | trace => "TRACE"

end Level

/-- The least severe level that is wanted, if any is. -/
inductive Verbosity
  | off
  | upTo (l : Level)
deriving DecidableEq, Repr

namespace Verbosity

def rank : Verbosity → Nat
  | off => 0
  | upTo l => l.rank

def admits (v : Verbosity) (l : Level) : Bool := l.rank ≤ v.rank

def name : Verbosity → String
  | off => "OFF"
  | upTo l => l.name

def all : List Verbosity := off :: Level.all.map upTo

end Verbosity

end Nucleus
