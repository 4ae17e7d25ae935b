-- How much is logged, chosen by how often more was asked for.

namespace Palette

inductive LogLevel where
  | warn
  | info
  | debug
  | trace
  deriving DecidableEq, Inhabited

namespace LogLevel

-- Warnings are always logged; asking three times or more for more gets everything.
def ofVerbosity : Nat → LogLevel
  | 0 => .warn
  | 1 => .info
  | 2 => .debug
  | _ => .trace

def name : LogLevel → String
  | .warn => "warn"
  | .info => "info"
  | .debug => "debug"
  | .trace => "trace"

-- The level as a number: each one shows what those below it do, and more.
def rank : LogLevel → Nat
  | .warn => 0
  | .info => 1
  | .debug => 2
  | .trace => 3

-- Whether messages of a level are logged at this one.
def shows (level message : LogLevel) : Bool := message.rank ≤ level.rank

end LogLevel

end Palette
