import Typeflow.Proofs.Effect.Store

/-! What queueing units changes: the queue and its measurements, and nothing is taken off. -/
namespace Typeflow.Session

/-- Some of the given units were put on the queue; all of them wait that may run. -/
structure Queues (us : List UnitId) (s t : Session) : Prop where
  frame : t = { s with queue := t.queue, metrics := t.metrics }
  kept : ∀ job ∈ s.queue.jobs, job ∈ t.queue.jobs
  origin : ∀ job ∈ t.queue.jobs,
    job ∈ s.queue.jobs ∨ s.isAlive job.unit = true ∧ job = s.job job.unit
  only : ∀ job ∈ t.queue.jobs, job ∈ s.queue.jobs ∨ job.unit ∈ us
  held : ∀ u ∈ us, s.isAlive u = true → t.queue.holds (s.job u) = true

namespace Queues

variable {us vs : List UnitId} {s t r : Session}

theorem nil (s : Session) : Queues [] s s :=
  ⟨rfl, fun _ h => h, fun _ h => .inl h, fun _ h => .inl h, fun _ h => nomatch h⟩

theorem isAlive (h : Queues us s t) (u : UnitId) : t.isAlive u = s.isAlive u := by
  rw [h.frame]; rfl

theorem job (h : Queues us s t) (u : UnitId) : t.job u = s.job u := by rw [h.frame]; rfl

theorem holds (h : Queues us s t) {job : Job} (hj : s.queue.holds job = true) :
    t.queue.holds job = true := by
  obtain ⟨other, ho, same⟩ := WorkQueue.holds_iff.1 hj
  exact WorkQueue.holds_iff.2 ⟨other, h.kept other ho, same⟩

theorem append (h : Queues us s t) (g : Queues vs t r) : Queues (us ++ vs) s r := by
  refine ⟨?_, fun job hj => g.kept job (h.kept job hj), fun job hj => ?_, fun job hj => ?_,
    fun u hu ha => ?_⟩
  · rw [g.frame, h.frame]
  · rcases g.origin job hj with hj | hj
    · exact h.origin job hj
    · rw [h.isAlive, h.job] at hj
      exact .inr hj
  · rcases g.only job hj with hj | hj
    · exact (h.only job hj).imp id (List.mem_append_left _)
    · exact .inr (List.mem_append_right _ hj)
  · rcases List.mem_append.1 hu with hu | hu
    · exact g.holds (h.held u hu ha)
    · rw [← h.job]
      exact g.held u hu (by rwa [h.isAlive])

end Queues

private theorem total_push (job : Job) (place : QueueEnd) : Total (push job place) := .modifyGet _

theorem total_enqueue (u : UnitId) (place : QueueEnd) : Total (enqueue u place) :=
  .read fun _ => .ite (.bind (total_push _ _) fun _ =>
    .ite (.bind (.modify _) fun _ => .modify _) (.pure _)) (.pure _)

/-- A unit that is queued is counted, and the length of the queue with it. -/
theorem after_enqueue {u : UnitId} {place : QueueEnd} {s : Session} {queue : WorkQueue}
    (alive : s.isAlive u = true) (pushed : s.queue.push? (s.job u) place = some queue) :
    after (enqueue u place) s =
      { s with
        queue
        metrics := (s.metrics.count "units_enqueued" 1).raise "queue_depth_max" queue.size.toUInt64 } := by
  have ran : push (s.job u) place s = .ok true { s with queue } := by
    simp [push, modifyGet_run, pushed]
  simp only [enqueue, after_read, alive, if_true]
  rw [after_bind_of_ok ran]
  rfl

/-- Queueing a unit changes nothing if it is dead or its body waits, and puts its job in otherwise. -/
theorem enqueue_cases (u : UnitId) (place : QueueEnd) (s : Session) :
    after (enqueue u place) s = s ∧ (s.isAlive u = true → s.queue.holds (s.job u) = true) ∨
      ∃ queue metrics, s.isAlive u = true ∧ s.queue.push? (s.job u) place = some queue ∧
        after (enqueue u place) s = { s with queue, metrics } := by
  cases ha : s.isAlive u with
  | false => exact .inl ⟨by simp [enqueue, ha], nofun⟩
  | true =>
    cases hq : s.queue.push? (s.job u) place with
    | none =>
      have stays : after (enqueue u place) s = s := by
        have pushed : push (s.job u) place s = .ok false s := by
          simp [push, modifyGet_run, hq]
        simp only [enqueue, after_read, ha, if_true]
        rw [after_bind_of_ok pushed]
        rfl
      exact .inl ⟨stays, fun _ => WorkQueue.push?_eq_none_iff.1 hq⟩
    | some queue => exact .inr ⟨queue, _, rfl, rfl, after_enqueue ha hq⟩

theorem queues_enqueue (u : UnitId) (place : QueueEnd) (s : Session) :
    Queues [u] s (after (enqueue u place) s) := by
  rcases enqueue_cases u place s with ⟨stays, held⟩ | ⟨queue, metrics, ha, hq, ends⟩
  · rw [stays]
    refine ⟨rfl, fun _ h => h, fun _ h => .inl h, fun _ h => .inl h, fun v hv hl => ?_⟩
    rw [List.mem_singleton.1 hv] at hl ⊢
    exact held hl
  · rw [ends]
    refine ⟨rfl, fun job hj => (WorkQueue.mem_of_push? hq).2 (.inr hj), fun job hj => ?_,
      fun job hj => ?_, fun v hv _ => ?_⟩
    · rcases (WorkQueue.mem_of_push? hq).1 hj with rfl | hj
      · exact .inr ⟨ha, rfl⟩
      · exact .inl hj
    · rcases (WorkQueue.mem_of_push? hq).1 hj with rfl | hj
      · exact .inr (List.mem_singleton_self u)
      · exact .inl hj
    · rw [List.mem_singleton.1 hv]
      exact WorkQueue.holds_iff.2 ⟨_, (WorkQueue.mem_of_push? hq).2 (.inl rfl), rfl, rfl⟩

theorem queues_forM (us : List UnitId) (s : Session) :
    Queues us s (after (us.forM fun u => enqueue u .back) s) := by
  induction us generalizing s with
  | nil => exact .nil s
  | cons u rest ih =>
    rw [after_forM_cons fun u => total_enqueue u .back]
    exact (queues_enqueue u .back s).append (ih _)

end Typeflow.Session
