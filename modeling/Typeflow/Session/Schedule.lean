import Typeflow.Session.Walk

/-! Runs of the queue: units are taken from the front and run until none is left. -/
namespace Typeflow.Session

/-- When a run of the queue is to stop early. -/
inductive Cancellation where
  | never
  /-- Asked for beforehand. -/
  | requested
  /-- Asked for by a report that makes this many reports wait. -/
  | afterReports (count : Nat)
  deriving DecidableEq, Repr, Inhabited

def Cancellation.startsRequested : Cancellation → Bool
  | .requested => true
  | _ => false

/-- Whether the report just made asks to stop. -/
def Cancellation.asksAt (c : Cancellation) (waiting : Nat) : Bool :=
  match c with
  | .afterReports count => decide (count ≤ waiting)
  | _ => false

/-- Reports the length of the queue. -/
def report : Analysis Unit := modify fun s => { s with reports := s.reports ++ [s.queue.size] }

/-- Reports after a number of runs when it is time, and tells whether to stop. -/
def reportAfter (c : Cancellation) (processed : Nat) : Analysis Bool := do
  match (← get).reportEvery with
  | none => return false
  | some interval =>
    if processed % interval ≠ 0 then return false
    report
    return c.asksAt (← get).reports.length

def logRun (node : Node) : Analysis Unit :=
  writeLog .units
    ("analyze " ++ node.kind.label ++ " at " ++ toString node.mark.line ++ ":" ++ toString node.mark.col)

/-- Empties the queue of a run that is to stop. -/
def stopRun : Analysis Unit := do
  let discarded ← clearQueue
  count "analysis_cancelled" 1
  writeLog .units ("cancelled, discarded " ++ toString discarded ++ " units")

/-- Runs units by `run` until none waits or the run is to stop, and gives the number of runs. Retired
units are passed over. `fuel` bounds the units taken from the queue. -/
def drain (run : UnitId → Analysis Unit) (c : Cancellation) (stopping : Bool) (processed : Nat) :
    Nat → Analysis Nat
  | 0 => throw .endless
  | fuel + 1 => do
    if stopping then
      stopRun
      return processed
    match ← pop with
    | none => return processed
    | some u =>
      if !(← get).isAlive u then drain run c false processed fuel
      else
        logRun ((← get).unit u).body.node
        run u
        count "units_processed" 1
        let asked ← reportAfter c (processed + 1)
        drain run c asked (processed + 1) fuel

/-- How many units one run may take from the queue. -/
def drainLimit : Nat := 100000000

/-- Runs everything that waits and gives the number of runs. -/
def analyzeQueued (c : Cancellation) : Analysis Nat := do
  let processed ← drain runBody c c.startsRequested 0 drainLimit
  if (← get).reportEvery.isSome then report
  return processed

/-- Reports the length of the queue every so many runs, at least at each run, or never. -/
def setReporting (interval : Option Nat) : Analysis Unit :=
  modify fun s => { s with reportEvery := interval.map (max 1) }

/-- Queues a module and runs everything that waits. -/
def analyzeEntry (e : EntryId) (c : Cancellation) : Analysis Unit := do
  enqueueEntry e
  let _ ← analyzeQueued c

end Typeflow.Session
