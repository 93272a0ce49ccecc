import Typeflow.Session.Basic

/-! Units of work: making, queueing, retiring and releasing them. -/
namespace Typeflow.Session

/-- The job that runs a unit. -/
def job (s : Session) (u : UnitId) : Job := ⟨u, (s.unit u).scope, (s.unit u).body.node.id⟩

def retire (u : UnitId) : Analysis Unit :=
  modify fun s => { s with units := s.units.modify u.index fun unit => { unit with retired := true } }

/-- Makes a unit. A unit of a removed module is retired at once; other modules keep track of theirs. -/
def newUnit (entry : Option EntryId) (scope : ScopeId) (body : Body) : Analysis UnitId := do
  let u ← modifyGet fun s =>
    let u : UnitId := ⟨s.units.size⟩
    (u, { s with units := s.units.push ⟨entry, scope, body, false⟩, liveUnits := s.liveUnits ++ [u] })
  if let some e := entry then
    if ((← get).entry e).removed then retire u
    else updateEntry e fun entry => { entry with units := entry.units ++ [u] }
  return u

/-- Queues a job whose body does not wait yet. -/
def push (job : Job) (place : QueueEnd) : Analysis Bool :=
  modifyGet fun s =>
    match s.queue.push? job place with
    | none => (false, s)
    | some queue => (true, { s with queue })

/-- Queues a unit unless it is retired or its body waits already. -/
def enqueue (u : UnitId) (place : QueueEnd) : Analysis Unit := do
  let s ← get
  if s.isAlive u then
    if ← push (s.job u) place then
      count "units_enqueued" 1
      modify fun s =>
        { s with metrics := s.metrics.raise "queue_depth_max" s.queue.size.toUInt64 }

/-- Takes the first unit off the queue. -/
def pop : Analysis (Option UnitId) :=
  modifyGet fun s =>
    match s.queue.pop? with
    | none => (none, s)
    | some (job, queue) => (some job.unit, { s with queue })

/-- Empties the queue and gives the number of jobs dropped. -/
def clearQueue : Analysis Nat :=
  modifyGet fun s => (s.queue.size, { s with queue := {} })

/-- Drops the jobs of retired units and gives their number. -/
def discardRetired : Analysis Nat :=
  modifyGet fun s =>
    let queue := s.queue.keepAlive s.isAlive
    (s.queue.size - queue.size, { s with queue })

/-- The watchers that are alive, without the names that have none left. -/
def liveWatchers (s : Session) : NameMap (List UnitId) :=
  s.watchers.filterMap fun _ units =>
    let units := units.filter s.isAlive
    if units.isEmpty then none else some units

/-- Lets go of retired units everywhere and gives the number that the session held. -/
def releaseRetired : Analysis Nat := do
  let s ← get
  let live := s.liveUnits.filter s.isAlive
  let released := s.liveUnits.length - live.length
  set { s with liveUnits := live, watchers := s.liveWatchers }
  let _ ← discardRetired
  if released ≠ 0 then count "units_released" released
  return released

/-- Runs the unit again when a module of the name appears. -/
def watch (name : String) (u : UnitId) : Analysis Unit :=
  modify fun s =>
    { s with watchers := s.watchers.insert name (Variable.addOnce u (s.watchers.findD name [])) }

end Typeflow.Session
