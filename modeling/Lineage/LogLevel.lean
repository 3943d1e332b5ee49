import Lineage.Text.Blank

/-!
# Log levels

How much a run tells besides its result. The levels are ordered: each one lets
through what the ones below it do. A level is chosen by name, in any mixture of
cases, or by how often verbosity is asked for.
-/

namespace Lineage

/-- How much is logged, from nothing to everything. -/
inductive LogLevel where
  | off
  | error
  | warn
  | info
  | debug
  | trace
deriving DecidableEq

namespace LogLevel

/-- The place of a level in the order. -/
def rank : LogLevel → Nat
  | off => 0
  | error => 1
  | warn => 2
  | info => 3
  | debug => 4
  | trace => 5

/-- Whether a level lets through what another one does. -/
def covers (level other : LogLevel) : Bool := other.rank ≤ level.rank

/-- The name of a level. -/
def name : LogLevel → Text
  | off => "OFF".toList
  | error => "ERROR".toList
  | warn => "WARN".toList
  | info => "INFO".toList
  | debug => "DEBUG".toList
  | trace => "TRACE".toList

/-- The level with a name, which may be in upper or lower case. -/
def ofName? (s : Text) : Option LogLevel :=
  let lower := s.map Char.toLower
  if lower = "error".toList then some error
  else if lower = "warn".toList || lower = "warning".toList then some warn
  else if lower = "info".toList then some info
  else if lower = "debug".toList then some debug
  else if lower = "trace".toList then some trace
  else if lower = "off".toList then some off
  else none

/-- The level for a count of requests to be more verbose. -/
def ofVerbosity : Nat → LogLevel
  | 0 => warn
  | 1 => info
  | 2 => debug
  | _ => trace

theorem ofName?_name (level : LogLevel) : ofName? level.name = some level := by
  cases level <;> decide

end LogLevel
end Lineage
