import Typeflow.Options

/-! The log of an analysis: lines by category, written while a sink is attached. -/
namespace Typeflow

structure Log where
  switches : LogSwitches := {}
  attached : Bool := false
  /-- The text that reached the sink and was not taken yet. -/
  text : String := ""
  deriving Repr, Inhabited

namespace Log

def isOn (log : Log) (category : LogCategory) : Bool := log.attached && log.switches.isOn category

def line (category : LogCategory) (message : String) : String :=
  "pyinfer[" ++ category.label ++ "]: " ++ message ++ "\n"

/-- Writes one line, or nothing when the category is off. -/
def write (log : Log) (category : LogCategory) (message : String) : Log :=
  if log.isOn category then { log with text := log.text ++ line category message } else log

def turn (log : Log) (category : LogCategory) (on : Bool) : Log :=
  { log with switches := log.switches.turn on category }

/-- The text since the last call. -/
def take (log : Log) : String × Log := (log.text, { log with text := "" })

end Log

end Typeflow
