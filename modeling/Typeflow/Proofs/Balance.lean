import Typeflow.Proofs.Life

/-! The balance of the queue: a unit that is queued is run, passed over, discarded or cleared, or it waits. -/
namespace Typeflow.Session

/-- What has become of the units that were queued, and the largest number of them that has waited. -/
structure Tally where
  processed : Nat := 0
  /-- Units that were retired when the scheduler came to them. -/
  skipped : Nat := 0
  /-- Units that were taken out because they were retired. -/
  discarded : Nat := 0
  /-- Units that were dropped when the queue was emptied. -/
  cleared : Nat := 0
  deepest : Nat := 0
  deriving DecidableEq, Repr

namespace Tally

/-- The units that have left the queue, as far as they do not run. -/
def left (w : Tally) : Nat := w.processed + w.skipped + w.discarded + w.cleared

def reach (w : Tally) (size : Nat) : Tally := { w with deepest := max w.deepest size }

end Tally

/-- A session and what has become of its units. -/
structure Booked where
  session : Session
  tally : Tally := {}

/-- A change that leaves alone the queue and what is counted about it. -/
structure Aloof (s t : Session) : Prop where
  queue : t.queue = s.queue := by rfl
  enqueued : t.metrics.counter "units_enqueued" = s.metrics.counter "units_enqueued" := by rfl
  processed : t.metrics.counter "units_processed" = s.metrics.counter "units_processed" := by rfl
  depth : t.metrics.gauge "queue_depth_max" = s.metrics.gauge "queue_depth_max" := by rfl

/-- What is done about the queue, by a unit while it runs or from outside. -/
inductive Deed where
  | enqueue (u : UnitId) (place : QueueEnd)
  | retire (u : UnitId)
  | discardRetired
  | releaseRetired
  | clear
  /-- Anything else. -/
  | other (change : Session → Session) (apart : ∀ s, Aloof s (change s))

namespace Deed

def run : Deed → Analysis Unit
  | .enqueue u place => Session.enqueue u place
  | .retire u => Session.retire u
  | .discardRetired => do let _ ← Session.discardRetired
  | .releaseRetired => do let _ ← Session.releaseRetired
  | .clear => do let _ ← clearQueue
  | .other change _ => modify change

/-- What is to be tallied when a deed takes the session from `s` to `t`. -/
def note (s t : Session) (w : Tally) : Deed → Tally
  | .discardRetired | .releaseRetired => { w with discarded := w.discarded + (s.queue.size - t.queue.size) }
  | .clear => { w with cleared := w.cleared + (s.queue.size - t.queue.size) }
  | .enqueue _ _ | .retire _ | .other _ _ => w

def perform (b : Booked) (d : Deed) : Booked :=
  let t := after d.run b.session
  ⟨t, (d.note b.session t b.tally).reach t.queue.size⟩

end Deed

/-- What the units do when they run, which may depend on the session as it is then. -/
abbrev Conduct := UnitId → Session → List Deed

variable (conduct : Conduct) (c : Cancellation)

def Conduct.run (u : UnitId) : Analysis Unit := do (conduct u (← get)).forM Deed.run

def drainBooked (stopping : Bool) (processed : Nat) : Nat → Booked → Option (Nat × Booked)
  | 0, _ => none
  | fuel + 1, ⟨s, w⟩ =>
    if stopping then some (processed, ⟨after stopRun s, { w with cleared := w.cleared + s.queue.size }⟩)
    else
      match s.queue.pop? with
      | none => some (processed, ⟨s, w⟩)
      | some (job, queue) =>
        if s.isAlive job.unit then
          let ran := (conduct job.unit (s.begun queue job.unit)).foldl Deed.perform ⟨s.begun queue job.unit, w⟩
          match closeTurn c processed ran.session with
          | .error _ _ => none
          | .ok asked t =>
            drainBooked asked (processed + 1) fuel ⟨t, { ran.tally with processed := ran.tally.processed + 1 }⟩
        else drainBooked false processed fuel ⟨{ s with queue }, { w with skipped := w.skipped + 1 }⟩

def analyzeBy (run : UnitId → Analysis Unit) : Analysis Nat := do
  let processed ← drain run c c.startsRequested 0 drainLimit
  if (← get).reportEvery.isSome then report
  return processed

/-- A part of a history: a deed, or a run of everything that waits. -/
inductive Errand where
  | deed (d : Deed)
  | analyze (c : Cancellation)

namespace Errand

/-- Carries an errand out and gives the number of units that were run. -/
def run : Errand → Analysis Nat
  | .deed d => do
    d.run
    return 0
  | .analyze c => analyzeBy c conduct.run

def perform (b : Booked) : Errand → Option (Nat × Booked)
  | .deed d => some (0, d.perform b)
  | .analyze c =>
    (drainBooked conduct c c.startsRequested 0 drainLimit b).map fun (processed, b) =>
      (processed, { b with session := after (closeRun processed) b.session })

def performAll (b : Booked) : List Errand → Option (List Nat × Booked)
  | [] => some ([], b)
  | e :: rest => do
    let (n, b) ← e.perform conduct b
    let (ns, b) ← performAll b rest
    return (n :: ns, b)

end Errand

/-- Since a session with which a history begins, the counters tell what has become of the units, of which some
may run. -/
structure Balanced (first : Session) (running : Nat) (b : Booked) : Prop where
  enqueued : b.session.metrics.counter "units_enqueued" + first.queue.size.toUInt64 =
    first.metrics.counter "units_enqueued" + (b.tally.left + running + b.session.queue.size).toUInt64
  processed : b.session.metrics.counter "units_processed" =
    first.metrics.counter "units_processed" + b.tally.processed.toUInt64
  reached : b.session.queue.size ≤ b.tally.deepest
  depth : first.queue.size ≤ (first.metrics.gauge "queue_depth_max").toNat → b.tally.deepest < UInt64.size →
    (b.session.metrics.gauge "queue_depth_max").toNat =
      max (first.metrics.gauge "queue_depth_max").toNat b.tally.deepest

private theorem toNat_max (m n : UInt64) : (max m n).toNat = max m.toNat n.toNat := by
  change (if m ≤ n then n else m).toNat = _
  split
  · exact (Nat.max_eq_right ‹m ≤ n›).symm
  · exact (Nat.max_eq_left (Nat.le_of_lt (Nat.lt_of_not_le ‹¬m ≤ n›))).symm

namespace Balanced

variable {first : Session} {running : Nat} {s t : Session} {w : Tally} {u : UnitId} {place : QueueEnd}

private theorem reach (h : Balanced first running ⟨s, w⟩) : w.reach s.queue.size = w := by
  rw [Tally.reach, Nat.max_eq_left h.reached]

theorem apart (h : Balanced first running ⟨s, w⟩) (apart : Aloof s t) : Balanced first running ⟨t, w⟩ where
  enqueued := by
    rw [apart.enqueued, apart.queue]
    exact h.enqueued
  processed := apart.processed.trans h.processed
  reached := apart.queue ▸ h.reached
  depth seen fits := by
    have before := h.depth seen fits
    dsimp only at before ⊢
    rw [apart.depth, before]

/-- A unit that comes to wait is counted. -/
theorem push (h : Balanced first running ⟨s, w⟩) {job : Job} {queue : WorkQueue}
    (pushed : s.queue.push? job place = some queue) :
    Balanced first running
      ⟨{ s with
          queue
          metrics := (s.metrics.count "units_enqueued" 1).raise "queue_depth_max" queue.size.toUInt64 },
        w.reach queue.size⟩ where
  enqueued := by
    have before := h.enqueued
    dsimp only at before ⊢
    have one : ((w.reach queue.size).left + running + queue.size).toUInt64 =
        (w.left + running + s.queue.size).toUInt64 + 1 := by
      rw [WorkQueue.size_push? pushed]
      exact UInt64.ofNat_add _ 1
    rw [Metrics.counter_raise, Metrics.counter_count, if_pos rfl, one, ← UInt64.add_assoc, ← before]
    ac_rfl
  processed := by
    have before := h.processed
    dsimp only at before ⊢
    rw [Metrics.counter_raise, Metrics.counter_count, if_neg (by decide), before]
    rfl
  reached := Nat.le_max_right _ _
  depth seen fits := by
    obtain ⟨old, new⟩ := Nat.max_lt.1 fits
    have before := h.depth seen old
    dsimp only at before ⊢
    have size : queue.size.toUInt64.toNat = queue.size := Nat.mod_eq_of_lt new
    rw [Metrics.gauge_raise, if_pos rfl, Metrics.gauge_count, toNat_max, before, size, Nat.max_assoc]
    rfl

/-- Units that leave the queue are still counted. -/
theorem lose (h : Balanced first running ⟨s, w⟩) {rest : WorkQueue} {v : Tally} {still : Nat}
    (fewer : rest.size ≤ s.queue.size)
    (counts : v.left + still = w.left + running + (s.queue.size - rest.size))
    (processed : v.processed = w.processed) (deepest : v.deepest = w.deepest) :
    Balanced first still ⟨{ s with queue := rest }, v⟩ where
  enqueued := by
    have before := h.enqueued
    dsimp only at before ⊢
    have same : w.left + running + s.queue.size = v.left + still + rest.size := by omega
    rw [before, same]
  processed := by
    rw [processed]
    exact h.processed
  reached := by
    rw [deepest]
    exact Nat.le_trans fewer h.reached
  depth seen fits := by
    rw [deepest] at fits ⊢
    exact h.depth seen fits

end Balanced

namespace Aloof

variable {s t r : Session}

theorem trans (h : Aloof s t) (g : Aloof t r) : Aloof s r where
  queue := g.queue.trans h.queue
  enqueued := g.enqueued.trans h.enqueued
  processed := g.processed.trans h.processed
  depth := g.depth.trans h.depth

theorem count (s : Session) (name : String) (delta : UInt64) (enqueued : "units_enqueued" ≠ name)
    (processed : "units_processed" ≠ name) : Aloof s { s with metrics := s.metrics.count name delta } where
  enqueued := by rw [Metrics.counter_count, if_neg enqueued]
  processed := by rw [Metrics.counter_count, if_neg processed]

theorem writeLog (s : Session) (category : LogCategory) (message : String) :
    Aloof s (after (Session.writeLog category message) s) := by
  constructor <;> rfl

theorem report (s : Session) : Aloof s (after Session.report s) := by constructor <;> rfl

end Aloof

namespace Balanced

variable {first : Session} {running : Nat} {b : Booked} {s : Session} {w : Tally}

/-- The units that are taken out because they are retired are tallied. -/
theorem discard {t : Session} (h : Balanced first running ⟨s, w⟩)
    (apart : Aloof { s with queue := s.queue.keepAlive s.isAlive } t) :
    Balanced first running
      ⟨t, Tally.reach { w with discarded := w.discarded + (s.queue.size - t.queue.size) } t.queue.size⟩ := by
  have lost : Balanced first running ⟨{ s with queue := s.queue.keepAlive s.isAlive },
      { w with discarded := w.discarded + (s.queue.size - (s.queue.keepAlive s.isAlive).size) }⟩ :=
    h.lose (s.queue.size_keepAlive_le _) (by simp only [Tally.left]; omega) rfl rfl
  have queue : t.queue = s.queue.keepAlive s.isAlive := apart.queue
  have still := lost.apart apart
  rw [← queue] at still
  rwa [still.reach]

/-- Whatever is done about the queue, the balance stays. -/
theorem perform (h : Balanced first running b) (d : Deed) : Balanced first running (d.perform b) := by
  obtain ⟨s, w⟩ := b
  cases d with
  | enqueue u place =>
    rw [Deed.perform]
    rcases enqueue_cases u place s with ⟨stays, -⟩ | ⟨queue, -, alive, pushed, -⟩
    · have stays : after (Deed.run (.enqueue u place)) s = s := stays
      rw [stays]
      dsimp only [Deed.note]
      rwa [h.reach]
    · have ends : after (Deed.run (.enqueue u place)) s = _ := after_enqueue alive pushed
      rw [ends]
      exact h.push pushed
  | retire u =>
    have apart : Aloof s (after (Session.retire u) s) := by constructor <;> rfl
    have still := h.apart apart
    rw [← still.reach] at still
    exact still
  | discardRetired => exact h.discard (by constructor <;> rfl)
  | releaseRetired =>
    obtain ⟨metrics, counted, ends⟩ := releaseRetired_counts s
    have released : after (Deed.run .releaseRetired) s = _ := (after_ignore _ s).trans ends
    refine h.discard ?_
    rw [released]
    rcases counted with rfl | ⟨n, rfl⟩
    · constructor <;> rfl
    · let t : Session := { s with
        liveUnits := s.liveUnits.filter s.isAlive
        watchers := s.liveWatchers
        queue := s.queue.keepAlive s.isAlive }
      have counts := Aloof.count t "units_released" n (by decide) (by decide)
      exact .trans (by constructor <;> rfl) counts
  | clear =>
    have lost : Balanced first running ⟨{ s with queue := {} },
        { w with cleared := w.cleared + (s.queue.size - ({} : WorkQueue).size) }⟩ :=
      h.lose (Nat.zero_le _) (by simp only [Tally.left]; omega) rfl rfl
    rw [← lost.reach] at lost
    exact lost
  | other change apart =>
    have still := h.apart (apart s)
    rw [← still.reach] at still
    exact still

private theorem foldl_perform (h : Balanced first running b) (deeds : List Deed) :
    Balanced first running (deeds.foldl Deed.perform b) := by
  induction deeds generalizing b with
  | nil => exact h
  | cons d rest ih => exact ih (h.perform d)

/-- The unit that the scheduler takes begins to run. -/
theorem begun (h : Balanced first 0 ⟨s, w⟩) {job : Job} {queue : WorkQueue}
    (popped : s.queue.pop? = some (job, queue)) : Balanced first 1 ⟨s.begun queue job.unit, w⟩ := by
  have size : s.queue.size = queue.size + 1 := by
    rw [WorkQueue.size, WorkQueue.jobs_of_pop? popped]
    rfl
  have taken : Balanced first 1 ⟨{ s with queue }, w⟩ := h.lose (by omega) (by omega) rfl rfl
  exact taken.apart (.writeLog _ _ _)

/-- A retired unit is passed over. -/
theorem skip (h : Balanced first 0 ⟨s, w⟩) {job : Job} {queue : WorkQueue}
    (popped : s.queue.pop? = some (job, queue)) :
    Balanced first 0 ⟨{ s with queue }, { w with skipped := w.skipped + 1 }⟩ := by
  have size : s.queue.size = queue.size + 1 := by
    rw [WorkQueue.size, WorkQueue.jobs_of_pop? popped]
    rfl
  exact h.lose (by omega) (by simp only [Tally.left]; omega) rfl rfl

private theorem aloof_reportAfter (c : Cancellation) (processed : Nat) (s : Session) :
    ∃ asked t, reportAfter c processed s = .ok asked t ∧ Aloof s t := by
  unfold reportAfter
  rw [read_run]
  cases s.reportEvery with
  | none => exact ⟨false, s, rfl, by constructor <;> rfl⟩
  | some interval =>
    by_cases soon : processed % interval ≠ 0
    · exact ⟨false, s, by simp only [if_pos soon]; rfl, by constructor <;> rfl⟩
    · exact ⟨_, _, by simp only [if_neg soon]; rfl, .report s⟩

private theorem closeRun_run (processed : Nat) (s : Session) :
    ∃ t, closeRun processed s = .ok processed t ∧ Aloof s t := by
  unfold closeRun
  rw [read_run]
  cases s.reportEvery with
  | none => exact ⟨s, rfl, by constructor <;> rfl⟩
  | some interval => exact ⟨_, rfl, .report s⟩

/-- The unit that runs is counted when it is done. -/
theorem closeTurn (h : Balanced first 1 ⟨s, w⟩) (c : Cancellation) (processed : Nat) :
    ∃ asked t, Session.closeTurn c processed s = .ok asked t ∧
      Balanced first 0 ⟨t, { w with processed := w.processed + 1 }⟩ := by
  let counted : Session := { s with metrics := s.metrics.count "units_processed" 1 }
  have counts : Session.count "units_processed" 1 s = .ok () counted := rfl
  obtain ⟨asked, t, ran, apart⟩ := aloof_reportAfter c (processed + 1) counted
  refine ⟨asked, t, (bind_of_ok counts).trans ran, Balanced.apart (s := counted) ?_ apart⟩
  constructor
  case enqueued =>
    have before := h.enqueued
    dsimp only [counted] at before ⊢
    have same : w.left + 1 + s.queue.size =
        Tally.left { w with processed := w.processed + 1 } + 0 + s.queue.size := by
      simp only [Tally.left]
      omega
    rw [Metrics.counter_count, if_neg (by decide), before, same]
  case processed =>
    have before := h.processed
    dsimp only [counted] at before ⊢
    rw [Metrics.counter_count, if_pos rfl, before, UInt64.add_assoc]
    exact congrArg _ (UInt64.ofNat_add _ 1).symm
  case reached => exact h.reached
  case depth => exact h.depth

/-- A run that is to stop empties the queue. -/
theorem stopRun (h : Balanced first 0 ⟨s, w⟩) :
    ∃ t, Session.stopRun s = .ok () t ∧ t.queue = {} ∧
      Balanced first 0 ⟨t, { w with cleared := w.cleared + s.queue.size }⟩ := by
  let emptied : Session := { s with queue := {} }
  let counted : Session := { emptied with metrics := s.metrics.count "analysis_cancelled" 1 }
  have lost : Balanced first 0 ⟨emptied, { w with cleared := w.cleared + s.queue.size }⟩ :=
    h.lose (Nat.zero_le _) (by simp only [Tally.left, WorkQueue.size, List.length_nil]; omega) rfl rfl
  have apart := (Aloof.count emptied "analysis_cancelled" 1 (by decide) (by decide)).trans
    (.writeLog counted .units ("cancelled, discarded " ++ toString s.queue.size ++ " units"))
  exact ⟨_, rfl, apart.queue, lost.apart apart⟩

end Balanced

theorem Deed.total (d : Deed) : Total d.run := by
  cases d with
  | enqueue u place => exact total_enqueue u place
  | retire u => exact total_retire u
  | discardRetired => exact .bind total_discardRetired fun _ => .pure _
  | releaseRetired => exact .bind total_releaseRetired fun _ => .pure _
  | clear => exact .bind (.modifyGet _) fun _ => .pure _
  | other change apart => exact .modify change

/-- What units do is tallied and no run of a unit is. -/
theorem processed_foldl_perform (deeds : List Deed) (b : Booked) :
    (deeds.foldl Deed.perform b).tally.processed = b.tally.processed := by
  induction deeds generalizing b with
  | nil => rfl
  | cons d rest ih =>
    rw [List.foldl_cons, ih]
    cases d <;> rfl

/-- A unit does what it does, whatever is tallied. -/
theorem Conduct.run_eq (u : UnitId) (s : Session) (w : Tally) :
    conduct.run u s = .ok () ((conduct u s).foldl Deed.perform ⟨s, w⟩).session := by
  have performed : ∀ (deeds : List Deed) (s : Session) (w : Tally),
      deeds.forM Deed.run s = .ok () (deeds.foldl Deed.perform ⟨s, w⟩).session := by
    intro deeds
    induction deeds with
    | nil => exact fun s w => rfl
    | cons d rest ih =>
      intro s w
      obtain ⟨⟨⟩, ran⟩ := d.total s
      exact (bind_of_ok ran).trans (ih _ _)
  exact performed (conduct u s) s w

section Drain

variable {conduct c} {stopping : Bool} {processed fuel n : Nat} {s t : Session}

private theorem drainBooked_pass {w : Tally} {job : Job} {queue : WorkQueue}
    (popped : s.queue.pop? = some (job, queue)) (dead : s.isAlive job.unit = false) :
    drainBooked conduct c false processed (fuel + 1) ⟨s, w⟩ =
      drainBooked conduct c false processed fuel ⟨{ s with queue }, { w with skipped := w.skipped + 1 }⟩ := by
  simp [drainBooked, popped, dead]

private theorem drainBooked_turn {w v : Tally} {job : Job} {queue : WorkQueue} {r : Session} {asked : Bool}
    (popped : s.queue.pop? = some (job, queue)) (alive : s.isAlive job.unit = true)
    (did : (conduct job.unit (s.begun queue job.unit)).foldl Deed.perform ⟨s.begun queue job.unit, w⟩ = ⟨r, v⟩)
    (closed : closeTurn c processed r = .ok asked t) :
    drainBooked conduct c false processed (fuel + 1) ⟨s, w⟩ =
      drainBooked conduct c asked (processed + 1) fuel ⟨t, { v with processed := v.processed + 1 }⟩ := by
  simp [drainBooked, popped, alive, did, closed]

/-- A run of the queue that ends has its books, which balance; it has emptied the queue and counted the units
that it ran. -/
theorem Balanced.drain {first : Session} {w : Tally} (h : Balanced first 0 ⟨s, w⟩)
    (ends : Session.drain conduct.run c stopping processed fuel s = .ok n t) :
    ∃ v, drainBooked conduct c stopping processed fuel ⟨s, w⟩ = some (n, ⟨t, v⟩) ∧
      Balanced first 0 ⟨t, v⟩ ∧ t.queue.jobs = [] ∧ w.processed + n = v.processed + processed := by
  induction fuel generalizing stopping processed s w with
  | zero => cases ends
  | succ fuel ih =>
    cases stopping with
    | true =>
      obtain ⟨r, stopped, empty, balanced⟩ := h.stopRun
      have last : Session.drain conduct.run c true processed (fuel + 1) s = .ok processed r :=
        bind_of_ok stopped
      rw [last] at ends
      cases ends
      refine ⟨_, ?_, balanced, by rw [empty], rfl⟩
      rw [drainBooked, if_pos rfl, after_of_ok stopped]
    | false =>
      cases popped : s.queue.pop? with
      | none =>
        rw [drain_empty popped] at ends
        cases ends
        exact ⟨w, by simp only [drainBooked, popped]; rfl, h, WorkQueue.pop?_eq_none_iff.1 popped, rfl⟩
      | some next =>
        obtain ⟨job, queue⟩ := next
        cases alive : s.isAlive job.unit with
        | false =>
          rw [drain_pass popped alive] at ends
          obtain ⟨v, books, rest⟩ := ih (h.skip popped) ends
          exact ⟨v, (drainBooked_pass popped alive).trans books, rest⟩
        | true =>
          rw [drain_turn popped alive] at ends
          let deeds := conduct job.unit (s.begun queue job.unit)
          have did := processed_foldl_perform deeds ⟨s.begun queue job.unit, w⟩
          have balanced := (h.begun popped).foldl_perform deeds
          have ran : conduct.run job.unit (s.begun queue job.unit) = _ := conduct.run_eq _ _ w
          obtain ⟨⟨r, v⟩, performed⟩ : ∃ b, deeds.foldl Deed.perform ⟨s.begun queue job.unit, w⟩ = b :=
            ⟨_, rfl⟩
          rw [performed] at did balanced ran
          obtain ⟨asked, q, closed, balanced⟩ := balanced.closeTurn c processed
          have went : turnAction conduct.run c processed job.unit (s.begun queue job.unit) = .ok asked q :=
            (bind_of_ok ran).trans closed
          rw [bind_of_ok went] at ends
          obtain ⟨last, books, balanced, empty, count⟩ := ih balanced ends
          dsimp only at did count
          exact ⟨last, (drainBooked_turn popped alive performed closed).trans books, balanced, empty, by omega⟩

private theorem WorkQueue.eq_empty {q : WorkQueue} (h : q.jobs = []) : q = {} := by
  obtain ⟨jobs, keys, inStep⟩ := q
  obtain rfl : jobs = [] := h
  obtain rfl : keys = [] := List.perm_nil.1 inStep.perm
  rfl

private theorem Balanced.analyzeBy {first : Session} {w : Tally} (h : Balanced first 0 ⟨s, w⟩)
    (ends : Session.analyzeBy c conduct.run s = .ok n t) :
    ∃ v, Errand.perform conduct ⟨s, w⟩ (.analyze c) = some (n, ⟨t, v⟩) ∧ Balanced first 0 ⟨t, v⟩ ∧
      t.queue = {} ∧ v.processed = w.processed + n := by
  obtain ⟨m, r, drained, closed⟩ := bind_eq_ok ends
  obtain ⟨v, books, balanced, empty, count⟩ := h.drain drained
  obtain ⟨q, closes, apart⟩ := closeRun_run m r
  obtain ⟨rfl, rfl⟩ : n = m ∧ t = q := by
    cases Eq.trans (Eq.symm closes) closed
    exact ⟨rfl, rfl⟩
  refine ⟨v, ?_, balanced.apart apart, apart.queue.trans (WorkQueue.eq_empty empty), by omega⟩
  rw [Errand.perform, books, Option.map_some]
  dsimp only
  rw [after_of_ok closes]

/-- Every balance begins with what is there. -/
theorem Balanced.start (s : Session) : Balanced s 0 ⟨s, { deepest := s.queue.size }⟩ where
  enqueued := by simp [Tally.left]
  processed := (UInt64.add_zero _).symm
  reached := Nat.le_refl _
  depth seen _ := (Nat.max_eq_left seen).symm

private theorem Balanced.errand {first : Session} {w : Tally} (h : Balanced first 0 ⟨s, w⟩) {e : Errand}
    (ends : e.run conduct s = .ok n t) :
    ∃ v, e.perform conduct ⟨s, w⟩ = some (n, ⟨t, v⟩) ∧ Balanced first 0 ⟨t, v⟩ := by
  cases e with
  | deed d =>
    obtain ⟨⟨⟩, ran⟩ := d.total s
    have last : Errand.run conduct (.deed d) s = .ok 0 (after d.run s) := bind_of_ok ran
    cases Eq.trans (Eq.symm last) ends
    exact ⟨_, rfl, h.perform d⟩
  | analyze c =>
    obtain ⟨v, books, balanced, -⟩ := h.analyzeBy ends
    exact ⟨v, books, balanced⟩

theorem Balanced.history {first : Session} {w : Tally} (h : Balanced first 0 ⟨s, w⟩) {history : List Errand}
    {ns : List Nat} (ends : history.mapM (Errand.run conduct) s = .ok ns t) :
    ∃ v, Errand.performAll conduct ⟨s, w⟩ history = some (ns, ⟨t, v⟩) ∧ Balanced first 0 ⟨t, v⟩ := by
  induction history generalizing s w ns with
  | nil =>
    cases ends
    exact ⟨w, rfl, h⟩
  | cons e rest ih =>
    rw [List.mapM_cons] at ends
    obtain ⟨n, r, ran, ends⟩ := bind_eq_ok ends
    obtain ⟨others, q, rested, last⟩ := bind_eq_ok ends
    cases last
    obtain ⟨v, books, balanced⟩ := h.errand ran
    obtain ⟨last, more, balanced⟩ := ih balanced rested
    refine ⟨last, ?_, balanced⟩
    simp [Errand.performAll, books, more]

end Drain

def unbooked (s : Session) : Session := { s with queue := {}, metrics := {} }

def prompting : Conduct := fun u _ =>
  if u = ⟨0⟩ then [.enqueue ⟨1⟩ .front, .enqueue ⟨2⟩ .back, .retire ⟨2⟩] else []

def threeUnits : Session :=
  { units := #[⟨none, ⟨0⟩, default, false⟩, ⟨none, ⟨1⟩, default, false⟩, ⟨none, ⟨2⟩, default, false⟩] }

end Typeflow.Session
