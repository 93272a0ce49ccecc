import Typeflow.Cache

/-! Histories of a memo table whose computations use the table themselves and may fail. -/
namespace Typeflow

inductive CacheStep where
  /-- Looks a key up; its computation runs the nested steps and then yields the value or fails. -/
  | recall (key : String) (value : Option Int) (nested : List CacheStep) (fails : Bool)
  /-- Runs a step and goes on when a computation in it fails. -/
  | attempt (step : CacheStep)
  | contains (key : String)
  | size
  | misses
  | clear
  deriving Inhabited

/-- What a history shows, in the order in which it happens. -/
inductive CacheEvent where
  | computing (key : String)
  | got (value : Option Int)
  | failed
  | contains (present : Bool)
  | size (count : Nat)
  | misses (count : Nat)
  | cleared
  deriving DecidableEq, Repr

/-- A failed computation, with no further detail. -/
inductive ComputationFailed where
  | mk
  deriving DecidableEq, Repr

structure CacheRun where
  cache : Cache String Int := {}
  events : List CacheEvent := []

namespace CacheRun

def field : CacheField CacheRun String Int where
  read run := run.cache
  write cache run := { run with cache }

def emit (event : CacheEvent) : EStateM ComputationFailed CacheRun Unit :=
  modify fun run => { run with events := run.events ++ [event] }

end CacheRun

open CacheRun

mutual

def CacheStep.run : CacheStep → EStateM ComputationFailed CacheRun Unit
  | .recall key value nested fails => do
    let got ← field.recall key do
      emit (.computing key)
      CacheStep.runAll nested
      if fails then throw .mk
      return value
    emit (.got got)
  | .attempt step => do
    try step.run catch _ => emit .failed
  | .contains key => do emit (.contains ((← get).cache.contains key))
  | .size => do emit (.size (← get).cache.size)
  | .misses => do emit (.misses (← get).cache.misses)
  | .clear => do
    modify fun run => { run with cache := run.cache.clear }
    emit .cleared

def CacheStep.runAll : List CacheStep → EStateM ComputationFailed CacheRun Unit
  | [] => pure ()
  | step :: rest => do
    step.run
    CacheStep.runAll rest

end

/-- All that a history shows, up to a failure that nothing catches. -/
def CacheStep.history (steps : List CacheStep) : List CacheEvent :=
  match (CacheStep.runAll steps).run {} with
  | .ok _ run | .error _ run => run.events

end Typeflow
