import Typeflow.Proofs.Effect.Queue

/-! What telling the readers of names changes, and what making and finding names does. -/
namespace Typeflow.Session

/-- The readers of some names were queued. Dead readers may have been dropped. -/
structure Notifies (xs : List VarId) (s t : Session) : Prop where
  frame : t = { s with records := t.records, queue := t.queue, metrics := t.metrics }
  kept : ∀ job ∈ s.queue.jobs, job ∈ t.queue.jobs
  origin : ∀ job ∈ t.queue.jobs,
    job ∈ s.queue.jobs ∨ s.isAlive job.unit = true ∧ job = s.job job.unit
  types : ∀ y, t.types y = s.types y
  readers : ∀ y, ∀ u ∈ (s.var y).readers, s.isAlive u = true → u ∈ (t.var y).readers
  held : ∀ x ∈ xs, ∀ u ∈ (s.var x).readers, s.isAlive u = true → t.queue.holds (s.job u) = true
  size : t.records.size = s.records.size

namespace Notifies

variable {xs ys : List VarId} {s t r : Session}

theorem nil (s : Session) : Notifies [] s s :=
  ⟨rfl, fun _ h => h, fun _ h => .inl h, fun _ => rfl, fun _ _ h _ => h, fun _ h => (nomatch h), rfl⟩

theorem isAlive (h : Notifies xs s t) (u : UnitId) : t.isAlive u = s.isAlive u := by
  rw [h.frame]; rfl

theorem job (h : Notifies xs s t) (u : UnitId) : t.job u = s.job u := by rw [h.frame]; rfl

theorem holds (h : Notifies xs s t) {job : Job} (hj : s.queue.holds job = true) :
    t.queue.holds job = true := by
  obtain ⟨other, ho, same⟩ := WorkQueue.holds_iff.1 hj
  exact WorkQueue.holds_iff.2 ⟨other, h.kept other ho, same⟩

theorem append (h : Notifies xs s t) (g : Notifies ys t r) : Notifies (xs ++ ys) s r := by
  refine ⟨?_, fun job hj => g.kept job (h.kept job hj), fun job hj => ?_, fun y => ?_,
    fun y u hu ha => ?_, fun x hx u hu ha => ?_, g.size.trans h.size⟩
  · rw [g.frame, h.frame]
  · rcases g.origin job hj with hj | hj
    · exact h.origin job hj
    · rw [h.isAlive, h.job] at hj
      exact .inr hj
  · rw [g.types, h.types]
  · exact g.readers y u (h.readers y u hu ha) (by rwa [h.isAlive])
  · rcases List.mem_append.1 hx with hx | hx
    · exact g.holds (h.held x hx u hu ha)
    · rw [← h.job]
      exact g.held x hx u (h.readers x u hu ha) (by rwa [h.isAlive])

end Notifies

theorem var_setIfInBounds (s : Session) (x y : VarId) (record : Variable) :
    { s with records := s.records.setIfInBounds x.index record : Session }.var y =
      if y = x ∧ x.index < s.records.size then record else s.var y := by
  simp only [Session.var, getD_setIfInBounds, VarId.index_inj]

theorem total_setVariable (x : VarId) (record : Variable) : Total (setVariable x record) := .modify _

theorem total_notifyReaders (x : VarId) : Total (notifyReaders x) :=
  .read fun _ => .bind (total_setVariable _ _) fun _ => .forM (fun u => total_enqueue u .back) _

/-- The readers that are alive are queued, and the others are dropped. -/
theorem after_notifyReaders (x : VarId) (s : Session) :
    after (notifyReaders x) s =
      after (((s.var x).sweep s.isAlive).readers.forM fun u => enqueue u .back)
        { s with records := s.records.setIfInBounds x.index ((s.var x).sweep s.isAlive) } := by
  have run : notifyReaders x s =
      (setVariable x ((s.var x).sweep s.isAlive) >>= fun _ =>
        ((s.var x).sweep s.isAlive).readers.forM fun u => enqueue u .back) s := rfl
  rw [after, run, ← after]
  exact after_seq (total_setVariable x _) s

/-- The record of the name is swept, and no other changes. -/
theorem var_notifyReaders (x y : VarId) (s : Session) :
    (after (notifyReaders x) s).var y =
      if y = x ∧ x.index < s.records.size then (s.var x).sweep s.isAlive else s.var y := by
  have queues := queues_forM ((s.var x).sweep s.isAlive).readers
    { s with records := s.records.setIfInBounds x.index ((s.var x).sweep s.isAlive) }
  rw [← after_notifyReaders] at queues
  rw [queues.frame]
  exact var_setIfInBounds s x y _

theorem size_notifyReaders (x : VarId) (s : Session) :
    (after (notifyReaders x) s).records.size = s.records.size := by
  have queues := queues_forM ((s.var x).sweep s.isAlive).readers
    { s with records := s.records.setIfInBounds x.index ((s.var x).sweep s.isAlive) }
  rw [← after_notifyReaders] at queues
  rw [queues.frame]
  exact Array.size_setIfInBounds

theorem notifies_notifyReaders (x : VarId) (s : Session) :
    Notifies [x] s (after (notifyReaders x) s) := by
  let record := (s.var x).sweep s.isAlive
  let swept : Session := { s with records := s.records.setIfInBounds x.index record }
  have queues := queues_forM record.readers swept
  rw [← after_notifyReaders] at queues
  have var := fun y => var_notifyReaders x y s
  refine ⟨?_, queues.kept, queues.origin, fun y => ?_, fun y u hu ha => ?_, fun y hy u hu ha => ?_,
    size_notifyReaders x s⟩
  · rw [queues.frame]
  · rw [types, types, var]
    split
    · next h => rw [h.1]; rfl
    · rfl
  · rw [var]
    split
    · next h => exact Variable.mem_readers_sweep.2 ⟨h.1 ▸ hu, ha⟩
    · exact hu
  · rw [List.mem_singleton.1 hy] at hu
    exact queues.held u (Variable.mem_readers_sweep.2 ⟨hu, ha⟩) ha

theorem notifies_forM (xs : List VarId) (s : Session) :
    Notifies xs s (after (xs.forM notifyReaders) s) := by
  induction xs generalizing s with
  | nil => exact .nil s
  | cons x rest ih =>
    rw [after_forM_cons total_notifyReaders]
    exact (notifies_notifyReaders x s).append (ih _)

/-- Values that change nothing leave the session as it is; else the readers are told of the change. -/
theorem addTypes_cases (x : VarId) (values : ValueSet) (s : Session) :
    (s.var x).grow? values = none ∧ addTypes x values s = .ok false s ∨
      ∃ record, (s.var x).grow? values = some record ∧
        addTypes x values s = .ok true
          (after (notifyReaders x) { s with records := s.records.setIfInBounds x.index record }) := by
  cases hg : (s.var x).grow? values with
  | none =>
    refine .inl ⟨rfl, ?_⟩
    simp only [addTypes, read_run, hg]
    rfl
  | some record =>
    let grown : Session := { s with records := s.records.setIfInBounds x.index record }
    have set : setVariable x record s = .ok () grown := rfl
    obtain ⟨⟨⟩, told⟩ := total_notifyReaders x grown
    refine .inr ⟨record, rfl, ?_⟩
    simp only [addTypes, read_run, hg]
    rw [bind_of_ok set, bind_of_ok told]
    rfl

/-- Values that change nothing are no news; others are told to the readers. -/
theorem after_addTypes (x : VarId) (values : ValueSet) (s : Session) :
    after (addTypes x values) s = s ∨
      ∃ record : Variable, record.readers = (s.var x).readers ∧
        Notifies [x] { s with records := s.records.setIfInBounds x.index record }
          (after (addTypes x values) s) := by
  rcases addTypes_cases x values s with ⟨-, kept⟩ | ⟨record, grew, told⟩
  · exact .inl (after_of_ok kept)
  · refine .inr ⟨record, Variable.readers_of_grow? grew, ?_⟩
    rw [after_of_ok told]
    exact notifies_notifyReaders x _

theorem nameIn_of_some {s : Session} {c : ScopeId} {name : String} {x : VarId}
    (h : s.findName? c name = some x) : nameIn c name s = .ok x s := by
  simp [nameIn, read_run, h, pure, EStateM.pure]

def withName (s : Session) (c : ScopeId) (name : String) : Session :=
  { s with
    records := s.records.push { cap := (s.scope c).cap }
    scopes := s.scopes.setIfInBounds c.index
      { s.scope c with names := (s.scope c).names.insert name ⟨s.records.size⟩ } }

theorem nameIn_of_none {s : Session} {c : ScopeId} {name : String}
    (h : s.findName? c name = none) : nameIn c name s = .ok ⟨s.records.size⟩ (s.withName c name) := by
  have made : newVariable (s.scope c).cap s =
      .ok ⟨s.records.size⟩ { s with records := s.records.push { cap := (s.scope c).cap } } := rfl
  simp only [nameIn, read_run, h]
  rw [bind_of_ok made]
  rfl

theorem after_nameIn (c : ScopeId) (name : String) (s : Session) :
    after (nameIn c name) s = s ∨
      s.findName? c name = none ∧ after (nameIn c name) s = s.withName c name := by
  cases h : s.findName? c name with
  | some x => exact .inl (after_of_ok (nameIn_of_some h))
  | none => exact .inr ⟨rfl, after_of_ok (nameIn_of_none h)⟩

end Typeflow.Session
