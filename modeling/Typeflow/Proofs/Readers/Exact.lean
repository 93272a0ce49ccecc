import Typeflow.Proofs.Effect.Definition
import Typeflow.Proofs.Effect.Retire

/-! The list of the readers of a name. Units retire without the name being told, so a list holds dead ones until
it is swept: when its readers are told of a change, and when it has doubled since the last time. -/
namespace Typeflow

/-- A list of readers against all units that were alive when they were added, each at its first time. -/
structure Lists (firsts : List UnitId) (alive : UnitId → Bool) (readers : List UnitId) : Prop where
  once : firsts.Nodup
  ordered : readers.Sublist firsts
  complete : ∀ u ∈ firsts, alive u = true → u ∈ readers

namespace Lists

variable {firsts readers : List UnitId} {alive : UnitId → Bool} {u : UnitId}

theorem empty (alive : UnitId → Bool) : Lists [] alive [] := ⟨.nil, .slnil, fun _ seen _ => seen⟩

theorem add (h : Lists firsts alive readers) (live : alive u = true) (new : u ∉ readers) :
    Lists (Variable.addOnce u firsts) alive (readers ++ [u]) := by
  have unseen : u ∉ firsts := fun seen => new (h.complete u seen live)
  rw [Variable.addOnce, if_neg unseen]
  refine ⟨List.nodup_append.2 ⟨h.once, List.pairwise_singleton _ u, ?_⟩, h.ordered.append_right [u], ?_⟩
  · rintro w seen _ last rfl
    rw [List.mem_singleton.1 last] at seen
    exact unseen seen
  · intro w seen alive
    rcases List.mem_append.1 seen with seen | last
    · exact List.mem_append_left _ (h.complete w seen alive)
    · exact List.mem_append_right _ last

/-- A unit that is listed was added before. -/
theorem again (h : Lists firsts alive readers) (there : u ∈ readers) : Variable.addOnce u firsts = firsts :=
  if_pos (h.ordered.subset there)

theorem sweep (h : Lists firsts alive readers) : Lists firsts alive (readers.filter alive) where
  once := h.once
  ordered := List.filter_sublist.trans h.ordered
  complete u seen live := List.mem_filter.2 ⟨h.complete u seen live, live⟩

/-- Units that retire do not come back. -/
theorem retire {left : UnitId → Bool} (h : Lists firsts alive readers)
    (gone : ∀ u, left u = true → alive u = true) : Lists firsts left readers where
  once := h.once
  ordered := h.ordered
  complete u seen live := h.complete u seen (gone u live)

end Lists

/-- What happens to a name and to units, as far as the readers of the name are concerned. -/
inductive ReaderEvent where
  | read (u : UnitId)
  | retire (u : UnitId)
  | notify
  | gain (values : ValueSet)

/-- What is known of the past of a list of readers: the units that were alive when they were added, each at its
first time, and how many readers there were right after the latest sweep. -/
structure Census where
  firsts : List UnitId := []
  swept : Nat := 0

namespace Session

def happen (x : VarId) : ReaderEvent → Analysis Bool
  | .read u => do
    addReader x u
    return false
  | .retire u => do
    retire u
    return false
  | .notify => do
    notifyReaders x
    return true
  | .gain values => addTypes x values

/-- The list is swept when readers are told, and when a new reader brings it to its limit. -/
def sweeps (x : VarId) (s : Session) (told : Bool) : ReaderEvent → Bool
  | .read u => s.isAlive u && !decide (u ∈ (s.var x).readers) &&
      decide ((s.var x).sweepAt ≤ (s.var x).readers.length + 1)
  | _ => told

/-- The census after an event that has led from one session to another. -/
def census (x : VarId) (e : ReaderEvent) (told : Bool) (s t : Session) (past : Census) : Census where
  firsts := match e with
    | .read u => if s.isAlive u then Variable.addOnce u past.firsts else past.firsts
    | _ => past.firsts
  swept := if sweeps x s told e then (t.var x).readers.length else past.swept

def follow (x : VarId) (past : Session × Census) (e : ReaderEvent) : Session × Census :=
  match happen x e past.1 with
  | .ok told t => (t, census x e told past.1 t past.2)
  | .error _ t => (t, past.2)

/-- The list of readers agrees with its past, and is shorter than the limit that the latest sweep has set. -/
structure Tracks (x : VarId) (past : Census) (s : Session) : Prop where
  there : x.index < s.records.size
  lists : Lists past.firsts s.isAlive (s.var x).readers
  limit : (s.var x).sweepAt = max 8 (2 * past.swept)
  room : (s.var x).readers.length < (s.var x).sweepAt

/-- The readers of a name were told: those that are left may run and wait, and none that may not was queued. -/
structure Told (x : VarId) (s t : Session) : Prop where
  waits : ∀ u ∈ (t.var x).readers, t.isAlive u = true ∧ t.queue.holds (t.job u) = true
  queued : ∀ job ∈ t.queue.jobs, job ∈ s.queue.jobs ∨ t.isAlive job.unit = true

variable {x : VarId} {s t : Session} {past : Census} {firsts : List UnitId}

private theorem told_notifyReaders (there : x.index < s.records.size) : Told x s (after (notifyReaders x) s) := by
  have notifies := notifies_notifyReaders x s
  refine ⟨fun u hu => ?_, fun job hj => ?_⟩
  · rw [var_notifyReaders, if_pos ⟨rfl, there⟩] at hu
    obtain ⟨reads, live⟩ := Variable.mem_readers_sweep.1 hu
    rw [notifies.isAlive, notifies.job]
    exact ⟨live, notifies.held x (List.mem_singleton_self x) u reads live⟩
  · rw [notifies.isAlive]
    exact (notifies.origin job hj).imp_right And.left

namespace Tracks

/-- A sweep leaves half of the limit that it sets free. -/
theorem of_sweep (record : Variable) (there : x.index < t.records.size)
    (lists : Lists firsts t.isAlive record.readers) (now : t.var x = record.sweep t.isAlive) :
    Tracks x ⟨firsts, (t.var x).readers.length⟩ t := by
  have limit : (t.var x).sweepAt = max 8 (2 * (t.var x).readers.length) := by
    rw [now]
    rfl
  refine ⟨there, ?_, limit, by omega⟩
  rw [now]
  exact lists.sweep

theorem fresh (s : Session) (cap : Nat) :
    Tracks ⟨s.records.size⟩ {} { s with records := s.records.push { cap } } := by
  have record : ({ s with records := s.records.push { cap } } : Session).var ⟨s.records.size⟩ = { cap } := by
    simp [Session.var]
  refine ⟨by simp, ?_, ?_, ?_⟩
  · rw [record]
    exact .empty _
  · rw [record]
    rfl
  · rw [record]
    exact Nat.zero_lt_succ 7

theorem read (h : Tracks x past s) (u : UnitId) :
    let t := after (addReader x u) s
    Tracks x (census x (.read u) false s t past) t := by
  intro t
  have size : t.records.size = s.records.size := by simp [t, addReader]
  have record : t.var x = (s.var x).addReader s.isAlive u :=
    (Fills.var_modify s x x _).trans (if_pos ⟨rfl, h.there⟩)
  rcases Variable.addReader_cases s.isAlive u (s.var x) with ⟨idle, same⟩ | ⟨live, new, dependents, listed, added⟩
  · have note : census x (.read u) false s t past = past := by
      rcases idle with dead | there
      · simp [census, sweeps, dead]
      · simp [census, sweeps, there, h.lists.again there]
    rw [note]
    rw [same] at record
    exact ⟨by rw [size]; exact h.there, by rw [record]; exact h.lists, by rw [record]; exact h.limit,
      by rw [record]; exact h.room⟩
  · have lists : Lists (Variable.addOnce u past.firsts) t.isAlive dependents.listed := by
      rw [listed]
      exact h.lists.add live new
    have there : x.index < t.records.size := by rw [size]; exact h.there
    have note : census x (.read u) false s t past =
        ⟨Variable.addOnce u past.firsts, if (s.var x).sweepAt ≤ (s.var x).readers.length + 1 then
          (t.var x).readers.length else past.swept⟩ := by
      simp [census, sweeps, live, new]
    rw [note]
    by_cases full : (s.var x).sweepAt ≤ (s.var x).readers.length + 1
    · rw [if_pos full] at added ⊢
      exact of_sweep { s.var x with dependents } there lists (record.trans added)
    · rw [if_neg full] at added ⊢
      have length : dependents.listed.length = (s.var x).readers.length + 1 := by simp [listed]
      rw [added] at record
      refine ⟨there, by rw [record]; exact lists, by rw [record]; exact h.limit, ?_⟩
      rw [record]
      exact Nat.lt_of_not_le (by rwa [← length] at full)

theorem retire (h : Tracks x past s) (u : UnitId) :
    let t := after (Session.retire u) s
    Tracks x (census x (.retire u) false s t past) t := by
  refine ⟨h.there, h.lists.retire fun w live => ?_, h.limit, h.room⟩
  rw [isAlive, unit_retire] at live
  split at live
  · cases live
  · exact live

private theorem notify (h : Tracks x past s) :
    let t := after (notifyReaders x) s
    Tracks x (census x .notify true s t past) t := by
  have alive : (after (notifyReaders x) s).isAlive = s.isAlive := funext (notifies_notifyReaders x s).isAlive
  refine of_sweep (s.var x) (by rw [size_notifyReaders]; exact h.there) ?_ ?_
  · rw [alive]
    exact h.lists
  · rw [alive, var_notifyReaders, if_pos ⟨rfl, h.there⟩]

/-- Other values do not touch the list. -/
theorem grown (h : Tracks x past s) {record : Variable} {values : ValueSet}
    (grew : (s.var x).grow? values = some record) :
    Tracks x past { s with records := s.records.setIfInBounds x.index record } := by
  have now : ({ s with records := s.records.setIfInBounds x.index record } : Session).var x = record := by
    rw [var_setIfInBounds, if_pos ⟨rfl, h.there⟩]
  rw [Variable.eq_of_grow? grew] at now ⊢
  refine ⟨by simpa using h.there, ?_, ?_, ?_⟩ <;> rw [now]
  · exact h.lists
  · exact h.limit
  · exact h.room

/-- Every event succeeds, and the list stays in step with its past. -/
theorem next (h : Tracks x past s) (e : ReaderEvent) :
    ∃ told t, happen x e s = .ok told t ∧ Tracks x (census x e told s t past) t ∧
      (e = .notify → told = true) ∧ (told = true → Told x s t) := by
  cases e with
  | read u => exact ⟨false, _, rfl, h.read u, nofun, nofun⟩
  | retire u => exact ⟨false, _, rfl, h.retire u, nofun, nofun⟩
  | notify =>
    obtain ⟨⟨⟩, ran⟩ := total_notifyReaders x s
    exact ⟨true, _, bind_of_ok ran, h.notify, fun _ => rfl, fun _ => told_notifyReaders h.there⟩
  | gain values =>
    rcases addTypes_cases x values s with ⟨-, ran⟩ | ⟨record, grew, ran⟩
    · exact ⟨false, s, ran, h, nofun, nofun⟩
    · have grown := h.grown grew
      have told := told_notifyReaders grown.there
      exact ⟨true, _, ran, grown.notify, nofun, fun _ => ⟨told.waits, told.queued⟩⟩

private theorem follow (h : Tracks x past s) (events : List ReaderEvent) :
    let ends := events.foldl (Session.follow x) (s, past)
    Tracks x ends.2 ends.1 := by
  induction events generalizing s past with
  | nil => exact h
  | cons e rest ih =>
    obtain ⟨told, t, ran, tracks, -, -⟩ := h.next e
    have step : Session.follow x (s, past) e = (t, census x e told s t past) := by
      rw [Session.follow, ran]
    rw [List.foldl_cons, step]
    exact ih tracks

end Tracks

/-- The readers of a name are listed exactly. Whatever happens to a new name, its list and the set beside it
hold the same units, each once; of the units that were alive when they were added, all that still are
stand there in the order of their first addition, and the list stays below eight or twice its length after
the latest sweep. Telling the readers leaves those that may run, which wait then, and queues no other. -/
theorem reader_list_is_exact (s : Session) (cap : Nat) (events : List ReaderEvent) :
    ∃ x fresh t past, newVariable cap s = .ok x fresh ∧
      events.foldl (follow x) (fresh, ({} : Census)) = (t, past) ∧
      ((t.var x).readers.Nodup ∧ (t.var x).dependents.known.Nodup ∧
        ∀ u, u ∈ (t.var x).dependents.known ↔ u ∈ (t.var x).readers) ∧
      (past.firsts.Nodup ∧ (t.var x).readers.Sublist past.firsts ∧
        ∀ u ∈ past.firsts, t.isAlive u = true → u ∈ (t.var x).readers) ∧
      (t.var x).readers.length < max 8 (2 * past.swept) ∧
      ∀ e, ∃ told r, happen x e t = .ok told r ∧ (e = .notify → told = true) ∧ (told = true → Told x t r) := by
  have made : newVariable cap s = .ok ⟨s.records.size⟩ { s with records := s.records.push { cap } } := rfl
  have tracks := (Tracks.fresh s cap).follow events
  refine ⟨_, _, _, _, made, rfl, ⟨ReaderList.nodup_listed _, (ReaderList.inStep _).nodup, fun u =>
    ReaderList.mem_known⟩, ⟨tracks.lists.once, tracks.lists.ordered, tracks.lists.complete⟩, ?_, fun e => ?_⟩
  · rw [← tracks.limit]
    exact tracks.room
  · obtain ⟨told, r, ran, -, notified, tells⟩ := tracks.next e
    exact ⟨told, r, ran, notified, tells⟩

def twoReaders : Session :=
  { (default : Session) with units := #[⟨none, ⟨0⟩, default, false⟩, ⟨none, ⟨1⟩, default, false⟩] }

/-- Of two units that have read a name the one that retires is not listed after a notice, and the other is. -/
theorem reader_list_is_exact_retiring :
    ∃ x fresh t past r, newVariable 0 twoReaders = .ok x fresh ∧
      [ReaderEvent.read ⟨0⟩, .read ⟨1⟩, .retire ⟨0⟩].foldl (follow x) (fresh, ({} : Census)) = (t, past) ∧
      happen x .notify t = .ok true r ∧ ⟨0⟩ ∉ (r.var x).readers ∧ past.firsts = [⟨0⟩, ⟨1⟩] ∧
      ⟨1⟩ ∈ (t.var x).readers := by
  obtain ⟨x, fresh, t, past, made, followed, -, ⟨-, -, complete⟩, -, next⟩ :=
    reader_list_is_exact twoReaders 0 [.read ⟨0⟩, .read ⟨1⟩, .retire ⟨0⟩]
  obtain ⟨told, r, ran, notified, tells⟩ := next .notify
  obtain rfl : told = true := notified rfl
  cases made
  cases followed
  have gone : r.isAlive ⟨0⟩ = false := by
    cases ran
    decide +kernel
  refine ⟨_, _, _, _, r, rfl, rfl, ran, fun listed => ?_, by decide +kernel, complete _ (by decide +kernel)
    (by decide +kernel)⟩
  rw [((tells rfl).waits _ listed).1] at gone
  cases gone

end Session

end Typeflow
