import Typeflow.Proofs.Effect.Still

/-! What clearing and queueing a module does: every reader of its names is told before they go. -/
namespace Typeflow.Session

def withoutNames (s : Session) (c : ScopeId) : Session :=
  { s with scopes := s.scopes.setIfInBounds c.index { s.scope c with names := {} } }

theorem total_clearNames (c : ScopeId) : Total (clearNames c) := .read fun _ => .modify _

theorem total_clearModule (m : ValueId) : Total (clearModule m) := by
  refine .read fun s => ?_
  split
  · exact .read fun _ => .bind (.forM total_notifyReaders _) fun _ => total_clearNames _
  · exact .pure _

/-- The readers of the names of a module are queued, and then the names go. -/
theorem clearModule_of_form {m : ValueId} {p : ProjectModule} {s : Session} (h : s.form m = .module p) :
    ∃ t, Notifies (s.scope p.scope).names.values s t ∧
      after (clearModule m) s = t.withoutNames p.scope := by
  refine ⟨_, notifies_forM _ s, ?_⟩
  simp only [clearModule, after_read, h]
  exact after_seq (.forM total_notifyReaders _) s

/-- Only modules of the project have names to lose. -/
theorem after_clearModule (m : ValueId) (s : Session) :
    after (clearModule m) s = s ∨
      ∃ p t, s.form m = .module p ∧ Notifies (s.scope p.scope).names.values s t ∧
        after (clearModule m) s = t.withoutNames p.scope := by
  cases h : s.form m with
  | module p =>
    obtain ⟨t, told, ends⟩ := clearModule_of_form h
    exact .inr ⟨p, t, rfl, told, ends⟩
  | _ =>
    refine .inl ?_
    simp only [clearModule, after_read, h, after_pure]

theorem total_enqueueEntry (e : EntryId) : Total (enqueueEntry e) := by
  refine .read fun s => .ite (.pure _) ?_
  split
  · exact .pure _
  · exact .bind (.modify _) fun _ => .bind (total_clearModule _) fun _ => total_enqueue _ _

def withVersion (s : Session) (e : EntryId) : Session :=
  { s with entries := s.entries.modify e.index fun entry => { entry with version := entry.version + 1 } }

/-- A module that is there and has a tree is cleared, and its unit is queued. -/
theorem enqueueEntry_of_unit {e : EntryId} {u : UnitId} {s : Session} (there : (s.entry e).removed = false)
    (head : (s.entry e).unit = some u) :
    after (enqueueEntry e) s =
      after (enqueue u .back) (after (clearModule (s.entry e).module) (s.withVersion e)) := by
  have run : enqueueEntry e s =
      (clearModule (s.entry e).module >>= fun _ => enqueue u .back) (s.withVersion e) := by
    simp only [enqueueEntry, read_run, there, head]
    rfl
  rw [after, run, ← after]
  exact after_seq (total_clearModule _) _

/-- Any other module is left alone. -/
theorem after_enqueueEntry (e : EntryId) (s : Session) :
    after (enqueueEntry e) s = s ∨
      ∃ u, (s.entry e).unit = some u ∧
        after (enqueueEntry e) s =
          after (enqueue u .back) (after (clearModule (s.entry e).module) (s.withVersion e)) := by
  cases hr : (s.entry e).removed with
  | true => exact .inl (by simp [enqueueEntry, hr])
  | false =>
    cases hu : (s.entry e).unit with
    | none => exact .inl (by simp [enqueueEntry, hr, hu])
    | some u => exact .inr ⟨u, rfl, enqueueEntry_of_unit hr hu⟩

theorem entry_modify (s : Session) (e f : EntryId) (change : Entry → Entry) :
    { s with entries := s.entries.modify e.index change : Session }.entry f =
      if f = e ∧ e.index < s.entries.size then change (s.entry f) else s.entry f := by
  simp only [Session.entry, getD_modify, EntryId.index_inj]

namespace Still

variable {keep : NodeId → Prop} {s : Session}

theorem withVersion (e : EntryId) : Still keep s (s.withVersion e) := by
  constructor
  case entry =>
    intro f
    rw [Session.withVersion, entry_modify]
    split
    · exact ⟨_, rfl⟩
    · exact ⟨_, rfl⟩
  case entries => simp [Session.withVersion]
  case values => exact Nat.le_refl _
  case kept => exact fun _ hj => hj
  case origin => exact fun _ hj => .inl hj
  all_goals intros; rfl

theorem clearModule (m : ValueId) : Still keep s (after (clearModule m) s) := by
  rcases after_clearModule m s with ends | ⟨p, t, _, told, ends⟩ <;> rw [ends]
  · exact refl s
  · exact (of_notifies told).trans (of_setScope rfl fun _ _ => rfl)

theorem enqueue (u : UnitId) (place : QueueEnd) : Still keep s (after (enqueue u place) s) :=
  of_queues (queues_enqueue u place s)

theorem enqueueEntry (e : EntryId) : Still keep s (after (enqueueEntry e) s) := by
  rcases after_enqueueEntry e s with ends | ⟨u, _, ends⟩ <;> rw [ends]
  · exact refl s
  · exact ((withVersion e).trans (clearModule _)).trans (enqueue u .back)

end Still

end Typeflow.Session
