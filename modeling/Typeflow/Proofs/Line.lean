import Typeflow.Proofs.Effect.Retire

/-! The queue is a line of units of which no two run the same body. The jobs of the queue and the set of their
keys both follow the line, however it is used and whatever units are retired meanwhile. -/
namespace Typeflow.Session

/-- A use of the queue. Units are retired at any moment, which leaves the queue alone. -/
inductive QueueUse where
  | push (u : UnitId) (place : QueueEnd)
  | pop
  | discardRetired
  | clear
  | contains (u : UnitId)
  | size
  | retire (u : UnitId)

/-- What a use of the queue gives back. -/
inductive QueueAnswer where
  | done
  | truth (holds : Bool)
  | number (n : Nat)
  | unit (u : Option UnitId)

def QueueUse.run : QueueUse → Analysis QueueAnswer
  | .push u place => do return .truth (← Session.push ((← get).job u) place)
  | .pop => do return .unit (← Session.pop)
  | .discardRetired => do return .number (← Session.discardRetired)
  | .clear => do return .number (← clearQueue)
  | .contains u => do return .truth ((← get).queue.holds ((← get).job u))
  | .size => do return .number (← get).queue.size
  | .retire u => do
    Session.retire u
    return .done

/-- The units that wait, the next one first, and the units that have been retired. -/
structure Line where
  waiting : List UnitId
  retired : UnitId → Bool

namespace Line

/-- What a use of the queue means for the line, where `key` tells what a unit runs. -/
def use (key : UnitId → ScopeId × NodeId) (line : Line) : QueueUse → QueueAnswer × Line
  | .push u place =>
    if ∃ v ∈ line.waiting, key v = key u then (.truth false, line)
    else (.truth true, { line with waiting := place.add u line.waiting })
  | .pop => (.unit line.waiting.head?, { line with waiting := line.waiting.tail })
  | .discardRetired =>
    (.number (line.waiting.countP line.retired),
      { line with waiting := line.waiting.filter (!line.retired ·) })
  | .clear => (.number line.waiting.length, { line with waiting := [] })
  | .contains u => (.truth (decide (∃ v ∈ line.waiting, key v = key u)), line)
  | .size => (.number line.waiting.length, line)
  | .retire u => (.done, { line with retired := fun v => decide (v = u) || line.retired v })

def useAll (key : UnitId → ScopeId × NodeId) (line : Line) : List QueueUse → List QueueAnswer × Line
  | [] => ([], line)
  | next :: rest =>
    let (answer, after) := line.use key next
    let (answers, last) := useAll key after rest
    (answer :: answers, last)

end Line

/-- The queue of the session holds the jobs of a line, and the same units are retired. -/
structure Shows (job : UnitId → Job) (s : Session) (line : Line) : Prop where
  jobs : s.queue.jobs = line.waiting.map job
  job : ∀ u, s.job u = job u
  retired : ∀ u, line.retired u = !s.isAlive u

variable {s : Session} {line : Line} {job : UnitId → Job}

private theorem isAlive_retire (u v : UnitId) (s : Session) :
    (after (retire u) s).isAlive v = (decide (v ≠ u) && s.isAlive v) := by
  rw [isAlive, unit_retire]
  by_cases hv : v = u <;> simp [hv, isAlive]

private theorem job_retire (u v : UnitId) (s : Session) : (after (retire u) s).job v = s.job v := by
  rw [Session.job, unit_retire]
  split <;> rfl

namespace Shows

private theorem keys_perm (h : Shows job s line) :
    s.queue.keys.Perm (line.waiting.map fun u => (job u).key) := by
  have keys := s.queue.inStep.perm
  rwa [h.jobs, List.map_map] at keys

theorem holds_iff (h : Shows job s line) (u : UnitId) :
    s.queue.holds (s.job u) = true ↔ ∃ v ∈ line.waiting, (job v).key = (job u).key := by
  rw [WorkQueue.holds_iff_mem, h.keys_perm.mem_iff, List.mem_map, h.job]

theorem distinct (h : Shows job s line) : (line.waiting.map fun u => (job u).key).Nodup := by
  have keys := s.queue.inStep.distinct
  rwa [h.jobs, List.map_map] at keys

/-- The jobs of units that are alive are those of the units in the line that are not retired. -/
theorem jobs_keepAlive (h : Shows job s line) :
    (s.queue.keepAlive s.isAlive).jobs = (line.waiting.filter (!line.retired ·)).map job := by
  have alive : ∀ u, s.isAlive (job u).unit = !line.retired u := fun u => by
    rw [h.retired, Bool.not_not, ← h.job]
    rfl
  rw [WorkQueue.jobs_keepAlive, h.jobs, List.filter_map]
  congr 2
  exact funext alive

private theorem size_queue (h : Shows job s line) : s.queue.size = line.waiting.length := by
  rw [WorkQueue.size, h.jobs, List.length_map]

/-- Each use of the queue does what it means for the line. -/
theorem use (h : Shows job s line) (next : QueueUse) :
    ∃ t, next.run s = .ok (line.use (fun u => (job u).key) next).1 t ∧
      Shows job t (line.use (fun u => (job u).key) next).2 := by
  cases next with
  | push u place =>
    cases held : s.queue.holds (s.job u) with
    | true =>
      have pushed : Session.push (s.job u) place s = .ok false s := by
        simp [Session.push, modifyGet_run, WorkQueue.push?_of_holds held]
      rw [Line.use, if_pos ((h.holds_iff u).1 held)]
      exact ⟨s, by rw [QueueUse.run, read_run, bind_of_ok pushed]; rfl, h⟩
    | false =>
      obtain ⟨queue, free, jobs⟩ := WorkQueue.push?_of_free held place
      have pushed : Session.push (s.job u) place s = .ok true { s with queue } := by
        simp [Session.push, modifyGet_run, free]
      rw [Line.use, if_neg (by rw [← h.holds_iff u, held]; exact Bool.false_ne_true)]
      refine ⟨{ s with queue }, by rw [QueueUse.run, read_run, bind_of_ok pushed]; rfl, ?_, h.job, h.retired⟩
      rw [jobs, h.jobs, h.job, QueueEnd.map_add]
  | pop =>
    cases popped : s.queue.pop? with
    | none =>
      have empty : line.waiting = [] := by
        have none := WorkQueue.pop?_eq_none_iff.1 popped
        rwa [h.jobs, List.map_eq_nil_iff] at none
      have ran : Session.pop s = .ok none s := by simp [Session.pop, modifyGet_run, popped]
      refine ⟨s, by rw [QueueUse.run, bind_of_ok ran, Line.use, empty]; rfl, ?_, h.job, h.retired⟩
      rw [h.jobs, Line.use, empty]
      rfl
    | some first =>
      obtain ⟨head, queue⟩ := first
      have jobs := WorkQueue.jobs_of_pop? popped
      rw [h.jobs] at jobs
      obtain ⟨u, rest, waiting, same, others⟩ := List.map_eq_cons_iff.1 jobs
      have ran : Session.pop s = .ok (some head.unit) { s with queue } := by
        simp [Session.pop, modifyGet_run, popped]
      have unit : head.unit = u := by rw [← same, ← h.job]; rfl
      refine ⟨{ s with queue }, ?_, ?_, h.job, h.retired⟩
      · rw [QueueUse.run, bind_of_ok ran, Line.use, waiting, unit]
        rfl
      · rw [Line.use, waiting]
        exact others.symm
  | discardRetired =>
    refine ⟨{ s with queue := s.queue.keepAlive s.isAlive }, ?_, h.jobs_keepAlive, h.job, h.retired⟩
    have kept : (s.queue.keepAlive s.isAlive).size = line.waiting.countP (!line.retired ·) := by
      rw [WorkQueue.size, h.jobs_keepAlive, List.length_map, List.countP_eq_length_filter]
    have discarded : s.queue.size - (s.queue.keepAlive s.isAlive).size =
        line.waiting.countP line.retired := by
      have parts := List.length_eq_countP_add_countP line.retired (l := line.waiting)
      rw [h.size_queue, kept, parts]
      simp
    rw [Line.use, ← discarded]
    rfl
  | clear =>
    refine ⟨{ s with queue := {} }, ?_, rfl, h.job, h.retired⟩
    rw [Line.use, ← h.size_queue]
    rfl
  | contains u =>
    refine ⟨s, ?_, h⟩
    have same : decide (∃ v ∈ line.waiting, (job v).key = (job u).key) = s.queue.holds (s.job u) := by
      rw [Bool.eq_iff_iff, h.holds_iff, decide_eq_true_iff]
    rw [Line.use, same]
    rfl
  | size =>
    refine ⟨s, ?_, h⟩
    rw [Line.use, ← h.size_queue]
    rfl
  | retire u =>
    refine ⟨after (retire u) s, rfl, h.jobs, fun v => (job_retire u v s).trans (h.job v), fun v => ?_⟩
    rw [isAlive_retire, Line.use]
    simp [h.retired]

private theorem useAll (h : Shows job s line) (uses : List QueueUse) :
    ∃ t, uses.mapM QueueUse.run s = .ok (line.useAll (fun u => (job u).key) uses).1 t ∧
      Shows job t (line.useAll (fun u => (job u).key) uses).2 := by
  induction uses generalizing s line with
  | nil => exact ⟨s, rfl, h⟩
  | cons next rest ih =>
    obtain ⟨r, ran, between⟩ := h.use next
    obtain ⟨t, others, last⟩ := ih between
    refine ⟨t, ?_, last⟩
    rw [List.mapM_cons, bind_of_ok ran, bind_of_ok others]
    rfl

end Shows

/-- However the queue is used, from the empty one on, every use answers as if the queue were a line of
units: one is added at its end unless one that runs the same body waits, the first one is taken, and those
that are retired are discarded. No two units in the line run the same body, the jobs are theirs, in order,
and the keys are the set of theirs. -/
theorem queue_refines_line (s : Session) (uses : List QueueUse) :
    let key := fun u => (s.job u).key
    let played := Line.useAll key ⟨[], fun u => !s.isAlive u⟩ uses
    ∃ t, uses.mapM QueueUse.run { s with queue := {} } = .ok played.1 t ∧
      t.queue.jobs = played.2.waiting.map s.job ∧ (∀ u, t.isAlive u = !played.2.retired u) ∧
      (played.2.waiting.map key).Nodup ∧ t.queue.keys.Nodup ∧
      ∀ k, k ∈ t.queue.keys ↔ k ∈ played.2.waiting.map key := by
  intro key played
  have start : Shows s.job { s with queue := {} } ⟨[], fun u => !s.isAlive u⟩ :=
    ⟨rfl, fun _ => rfl, fun _ => rfl⟩
  obtain ⟨t, ran, shows⟩ := start.useAll uses
  refine ⟨t, ran, shows.jobs, fun u => ?_, shows.distinct, t.queue.inStep.nodup, fun k => ?_⟩
  · rw [shows.retired, Bool.not_not]
  · exact shows.keys_perm.mem_iff

end Typeflow.Session
