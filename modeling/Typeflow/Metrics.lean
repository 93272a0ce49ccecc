import Typeflow.NameMap

/-! Counters, gauges and timers of an analysis. Counters hold 64 bits and wrap around. -/
namespace Typeflow

structure Metrics where
  /-- The times, in microseconds, at which the running timers were started. -/
  running : NameMap Nat := {}
  durations : NameMap Nat := {}
  counters : NameMap UInt64 := {}
  gauges : NameMap UInt64 := {}
  deriving Inhabited

namespace Metrics

def start (m : Metrics) (name : String) (now : Nat) : Metrics :=
  { m with running := m.running.insert name now }

/-- Adds the time since the timer was started; a timer that does not run is left alone. -/
def stop (m : Metrics) (name : String) (now : Nat) : Metrics :=
  match m.running.find? name with
  | none => m
  | some began =>
    { m with
      running := m.running.erase name
      durations := m.durations.insert name (m.durations.findD name 0 + (now - began)) }

def counter (m : Metrics) (name : String) : UInt64 := m.counters.findD name 0

def gauge (m : Metrics) (name : String) : UInt64 := m.gauges.findD name 0

def count (m : Metrics) (name : String) (delta : UInt64) : Metrics :=
  { m with counters := m.counters.insert name (m.counter name + delta) }

def setGauge (m : Metrics) (name : String) (value : UInt64) : Metrics :=
  { m with gauges := m.gauges.insert name value }

/-- Keeps the largest value reported. -/
def raise (m : Metrics) (name : String) (value : UInt64) : Metrics :=
  m.setGauge name (max (m.gauge name) value)

theorem counter_count (m : Metrics) (name other : String) (delta : UInt64) :
    (m.count name delta).counter other =
      if other = name then m.counter name + delta else m.counter other := by
  simp only [counter, count, NameMap.findD, NameMap.find?_insert]
  split <;> rfl

theorem gauge_raise (m : Metrics) (name other : String) (value : UInt64) :
    (m.raise name value).gauge other =
      if other = name then max (m.gauge name) value else m.gauge other := by
  simp only [gauge, raise, setGauge, NameMap.findD, NameMap.find?_insert]
  split <;> rfl

@[simp] theorem gauge_count (m : Metrics) (name other : String) (delta : UInt64) :
    (m.count name delta).gauge other = m.gauge other := rfl

@[simp] theorem counter_raise (m : Metrics) (name other : String) (value : UInt64) :
    (m.raise name value).counter other = m.counter other := rfl

def deepQueue : UInt64 := 10000

/-- What a reader of the figures should know first. -/
def hints (m : Metrics) : List String :=
  (if 0 < m.counter "analysis_cancelled" then ["analysis_incomplete"] else []) ++
  (if 0 < m.counter "host_contract_breaches" then ["host_contract_breaches"] else []) ++
  (if deepQueue < m.gauge "queue_depth_max" then ["deep_queue"] else [])

/-- Microseconds as milliseconds with three places. -/
def milliseconds (micros : Nat) : String :=
  let places := toString (micros % 1000)
  toString (micros / 1000) ++ "." ++ "".pushn '0' (3 - places.length) ++ places

/-- The figures as text; `duration` writes a time. -/
def summaryText (duration : Nat → String) (m : Metrics) : String :=
  "== Metrics ==\n" ++
  String.join (m.durations.toList.map fun pair => "  " ++ pair.1 ++ ": " ++ duration pair.2 ++ " ms\n") ++
  String.join (m.counters.toList.map fun pair => "  " ++ pair.1 ++ ": " ++ toString pair.2.toNat ++ "\n")

def member (pair : String × String) : String := "\n    \"" ++ pair.1 ++ "\": " ++ pair.2

/-- One object of the report, its members already written. -/
def object (name : String) (members : List (String × String)) : String :=
  "  \"" ++ name ++ "\": \x7b" ++ ",".intercalate (members.map member) ++ "\n  \x7d"

/-- The figures as an object in JSON. Names are written as they are. -/
def summaryJson (duration : Nat → String) (m : Metrics) : String :=
  let figures (figures : NameMap UInt64) := figures.toList.map fun pair => (pair.1, toString pair.2.toNat)
  let durations := object "durations_ms" (m.durations.toList.map fun pair => (pair.1, duration pair.2))
  let counters := if m.counters.isEmpty then [] else [object "counters" (figures m.counters)]
  let gauges := if m.gauges.isEmpty then [] else [object "gauges" (figures m.gauges)]
  let hints :=
    if m.hints.isEmpty then []
    else ["  \"hints\": [" ++ ", ".intercalate (m.hints.map fun hint => "\"" ++ hint ++ "\"") ++ "]"]
  "\x7b\n" ++ ",\n".intercalate (durations :: counters ++ gauges ++ hints) ++ "\n\x7d\n"

end Metrics

end Typeflow
