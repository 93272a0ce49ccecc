import Typeflow.Ids
import Typeflow.InStep
import Typeflow.Tree

/-! The queue of units that wait to be run. A body, which is a scope and a node, waits once at most. The jobs
stand in order beside the set of their keys, which look-ups ask. -/
namespace Typeflow

/-- A unit together with the body that it runs. -/
structure Job where
  unit : UnitId
  scope : ScopeId
  node : NodeId
  deriving DecidableEq, Repr, Inhabited

/-- What a job runs. Jobs of several units may share a key. -/
def Job.key (job : Job) : ScopeId × NodeId := (job.scope, job.node)

def Job.sameBody (a b : Job) : Bool := a.scope = b.scope && a.node = b.node

inductive QueueEnd where
  | front
  | back
  deriving DecidableEq, Repr, Inhabited

/-- The list with one more at an end. -/
def QueueEnd.add {α : Type} : QueueEnd → α → List α → List α
  | .front, a, list => a :: list
  | .back, a, list => list ++ [a]

namespace QueueEnd

variable {α : Type}

private theorem perm_add (place : QueueEnd) (a : α) (list : List α) : (place.add a list).Perm (a :: list) := by
  cases place with
  | front => exact .refl _
  | back => exact List.perm_append_singleton _ _

@[simp] theorem mem_add {place : QueueEnd} {a b : α} {list : List α} :
    b ∈ place.add a list ↔ b = a ∨ b ∈ list := by
  rw [(place.perm_add a list).mem_iff, List.mem_cons]

@[simp] theorem length_add (place : QueueEnd) (a : α) (list : List α) :
    (place.add a list).length = list.length + 1 :=
  (place.perm_add a list).length_eq

theorem map_add {β : Type} (f : α → β) (place : QueueEnd) (a : α) (list : List α) :
    (place.add a list).map f = place.add (f a) (list.map f) := by
  cases place with
  | front => rfl
  | back => exact List.map_append

end QueueEnd

theorem Job.inStep_nil : InStep Job.key [] [] := .nil

/-- The jobs in order, and the keys of those that wait. -/
structure WorkQueue where
  jobs : List Job := []
  keys : List (ScopeId × NodeId) := []
  inStep : InStep Job.key jobs keys := by exact Job.inStep_nil
  deriving DecidableEq, Repr

instance : Inhabited WorkQueue := ⟨{}⟩

namespace WorkQueue

def size (q : WorkQueue) : Nat := q.jobs.length

/-- Whether the body of a job waits, for whichever unit. -/
def holds (q : WorkQueue) (job : Job) : Bool := q.keys.contains job.key

/-- Adds a job whose body does not wait yet. -/
def push? (q : WorkQueue) (job : Job) (place : QueueEnd) : Option WorkQueue :=
  if held : q.holds job = true then none
  else
    have free : job.key ∉ q.keys := by simpa [holds] using held
    some ⟨place.add job q.jobs, job.key :: q.keys, q.inStep.add free (place.perm_add job q.jobs)⟩

def pop? : WorkQueue → Option (Job × WorkQueue)
  | ⟨[], _, _⟩ => none
  | ⟨job :: rest, keys, inStep⟩ => some (job, ⟨rest, keys.erase job.key, inStep.remove []⟩)

/-- Keeps the jobs of units that are alive and takes out the keys of the others. -/
def keepAlive (alive : UnitId → Bool) (q : WorkQueue) : WorkQueue :=
  let stays : Job → Bool := fun job => alive job.unit
  let dead := q.jobs.filter (!stays ·)
  ⟨q.jobs.filter stays, dead.foldl (fun keys (job : Job) => keys.erase job.key) q.keys,
    q.inStep.filter stays []⟩

theorem holds_iff_mem {q : WorkQueue} {job : Job} : q.holds job = true ↔ job.key ∈ q.keys :=
  List.contains_iff_mem

theorem holds_iff {q : WorkQueue} {job : Job} :
    q.holds job = true ↔ ∃ other ∈ q.jobs, other.scope = job.scope ∧ other.node = job.node := by
  simp [holds_iff_mem, q.inStep.mem_keys, Job.key]

theorem push?_of_holds {q : WorkQueue} {job : Job} (held : q.holds job = true) (place : QueueEnd) :
    q.push? job place = none := by
  simp [push?, held]

theorem push?_of_free {q : WorkQueue} {job : Job} (free : q.holds job = false) (place : QueueEnd) :
    ∃ r, q.push? job place = some r ∧ r.jobs = place.add job q.jobs := by
  simp [push?, free]

theorem push?_eq_none_iff {q : WorkQueue} {job : Job} {place : QueueEnd} :
    q.push? job place = none ↔ q.holds job = true := by
  simp [push?]

private theorem jobs_of_push? {q r : WorkQueue} {job : Job} {place : QueueEnd}
    (h : q.push? job place = some r) : r.jobs = place.add job q.jobs := by
  unfold push? at h
  split at h
  · cases h
  · cases h
    rfl

theorem mem_of_push? {q r : WorkQueue} {job other : Job} {place : QueueEnd}
    (h : q.push? job place = some r) : other ∈ r.jobs ↔ other = job ∨ other ∈ q.jobs := by
  rw [jobs_of_push? h, QueueEnd.mem_add]

theorem size_push? {q r : WorkQueue} {job : Job} {place : QueueEnd}
    (h : q.push? job place = some r) : r.size = q.size + 1 := by
  rw [size, jobs_of_push? h, QueueEnd.length_add, size]

theorem pop?_eq_none_iff {q : WorkQueue} : q.pop? = none ↔ q.jobs = [] := by
  obtain ⟨jobs, keys, inStep⟩ := q
  cases jobs <;> simp [pop?]

theorem jobs_of_pop? {q r : WorkQueue} {job : Job} (h : q.pop? = some (job, r)) :
    q.jobs = job :: r.jobs := by
  obtain ⟨jobs, keys, inStep⟩ := q
  cases jobs with
  | nil => cases h
  | cons first rest =>
    cases h
    rfl

@[simp] theorem jobs_keepAlive (alive : UnitId → Bool) (q : WorkQueue) :
    (q.keepAlive alive).jobs = q.jobs.filter fun job => alive job.unit := rfl

theorem size_keepAlive_le (q : WorkQueue) (alive : UnitId → Bool) : (q.keepAlive alive).size ≤ q.size :=
  List.length_filter_le _ _

theorem mem_keepAlive {q : WorkQueue} {alive : UnitId → Bool} {job : Job} :
    job ∈ (q.keepAlive alive).jobs ↔ job ∈ q.jobs ∧ alive job.unit = true := by
  simp

end WorkQueue

end Typeflow
