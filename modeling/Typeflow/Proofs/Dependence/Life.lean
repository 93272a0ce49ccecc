import Typeflow.Proofs.Dependence

/-! Units mind what they have read all their life, but for their own turns. -/
namespace Typeflow.Session

namespace Minds

variable {u : UnitId} {s t r : Session}

theorem withCode (v : ValueId) (change : Code → Code) : Minds u s (s.withCode v change) :=
  setValue fun part _ hx => (Form.record?_mapCode (s.form v) change part).trans hx

/-- Other units are the same when one is made. -/
theorem withUnit (hu : u.index < s.units.size) (entry : Option EntryId) (scope : ScopeId) (body : Body) :
    Minds u s (s.withUnit entry scope body) := by
  have unit : (s.withUnit entry scope body).unit u = s.unit u := by
    rw [unit_withUnit, if_neg (Nat.ne_of_lt hu)]
  have alive : (s.withUnit entry scope body).isAlive u = s.isAlive u := by
    rw [isAlive, unit]
    rfl
  have job : (s.withUnit entry scope body).job u = s.job u := by rw [Session.job, unit]; rfl
  refine intro (fun ha => by rwa [← alive]) (fun _ hq => by rwa [job]) fun _ place x types hd => .inr ?_
  refine ⟨?_, hd.reader, hd.same⟩
  cases place <;> exact hd.stored

theorem enqueueBody (hu : u.index < s.units.size) (v : ValueId) (place : QueueEnd) :
    Minds u s (after (enqueueBody v place) s) := by
  rcases after_enqueueBody v place s with ⟨-, ends⟩ |
    ⟨code, body, -, -, ⟨w, -, ends⟩ | ⟨-, ends⟩⟩ <;> rw [ends]
  · exact refl u s
  · exact enqueue w place
  · exact ((withUnit hu _ _ _).trans (withCode v _)).trans (enqueue _ place)

theorem of_defines {kind : ValueKind} {w : UnitId} {body : Body} (h : Defines kind w body s t) :
    Minds u s t := by
  refine of_kept h.units (fun _ hj => by rwa [h.queue]) (fun v part x hx => ?_) h.names
    (fun x _ hr => by rwa [h.readers]) h.types
  rwa [h.form v (ne_size_of_record? hx)]

/-- Every step minds what a unit heeds. -/
theorem of_step {L : Licence} (hu : u.index < s.units.size) (h : Step L s t) : Minds u s t := by
  have defined : ∀ {kind : ValueKind} {w : UnitId} {body : Body} {make : Analysis ValueId},
      Makes kind w body make → Minds u s (after (definitionAt w body.node kind make) s) := by
    intro kind w body make makes
    rcases definitionAt_run makes s with ⟨values, -, run⟩ | ⟨-, t, run, defines⟩ <;>
      rw [after_of_ok run]
    · exact refl u s
    · exact of_defines defines
  cases h with
  | bookkeep h => exact of_eq h.units h.queue h.values h.scopes h.records
  | makeValue value h free => exact newValue value
  | amendValue v value h rest => exact setValue fun part x hx => by rwa [h]
  | resolve cls on => exact setResolving cls on
  | attributeOf v name => exact attributeOf v name
  | newVariable cap => exact newVariable cap
  | nameIn scope name => exact nameIn scope name
  | addTypes x values => exact addTypes x values
  | addReader x reader => exact addReader x reader
  | addAssignment x place => exact addAssignment x place
  | addReference x place => exact addReference x place
  | keepValue scope node values h => exact setNodeValue scope node values
  | enqueue v place => exact enqueue v place
  | clearModule m => exact clearModule m
  | enqueueBody v place => exact enqueueBody hu v place
  | enqueueEntry e => exact enqueueEntry e
  | defineFunction w body name params h kind => exact defined (makes_newFunction w body name params)
  | defineClass w body name h kind => exact defined (makes_newClass w body name)

theorem of_steps {L : Licence} (hs : Sane s) (hl : L.Sound s) (hu : u.index < s.units.size)
    (h : Steps L s t) : Minds u s t := by
  have both : Ages s t ∧ Minds u s t :=
    hs.steps_induct (P := fun t => Ages s t ∧ Minds u s t) hl h ⟨.refl s, refl u s⟩
      fun _ _ sane _ next ⟨ages, minds⟩ =>
        ⟨ages.trans (.of_step sane.coherent next),
          minds.trans (of_step (Nat.lt_of_lt_of_le hu ages.units) next)⟩
  exact both.2

/-- Units that are retired leave the queue, others stay. -/
theorem of_retires {e : EntryId} {detaching : Bool} (h : Retires e detaching s t)
    (mem : s.isAlive u = true → s.queue.holds (s.job u) = true → s.job u ∈ s.queue.jobs) :
    Minds u s t := by
  have unit : t.isAlive u = true → t.unit u = s.unit u := by
    intro ha
    rw [isAlive, h.unit] at ha
    rw [h.unit]
    split at ha
    · cases ha
    · next hu => rw [if_neg hu]
  have alive : t.isAlive u = true → s.isAlive u = true := fun ha => by rwa [isAlive, unit ha] at ha
  have kept : t.records = s.records ∧ t.scopes = s.scopes := by rw [h.frame]; exact ⟨rfl, rfl⟩
  refine intro alive (fun ha hq => ?_) fun ha place x types hd => .inr ?_
  · have same : t.job u = s.job u := by rw [job, unit ha]; rfl
    rw [same, h.queue]
    exact WorkQueue.holds_iff.2
      ⟨s.job u, WorkQueue.mem_keepAlive.2 ⟨mem (alive ha) hq, ha⟩, rfl, rfl⟩
  · refine ⟨?_, ?_, ?_⟩
    · have stored := hd.stored
      cases place with
      | name c n =>
        rw [recordAt?, findName?, scope, kept.2]
        exact stored
      | part v part =>
        rw [recordAt?, h.form]
        split
        · exact (Form.record?_mapCode _ _ _).trans stored
        · exact stored
    · rw [var, kept.1]
      exact hd.reader
    · rw [Session.types, var, kept.1]
      exact hd.same

theorem withHead (hu : u.index < s.units.size) (e : EntryId) (c : ScopeId) (body : Body) :
    Minds u s (s.withHead e c body) :=
  (withUnit hu (some e) c body).trans (of_eq rfl rfl rfl rfl rfl)

theorem withoutNodeValues (c : ScopeId) : Minds u s (s.withoutNodeValues c) := by
  refine of_kept rfl (fun _ h => h) (fun _ _ _ h => h) (fun d name x hx => ?_) (fun _ _ h => h)
    fun _ => rfl
  rw [findName?, show (s.withoutNodeValues c).scope d =
    if d = c ∧ c.index < s.scopes.size then { s.scope c with nodeValues := [] } else s.scope d by
      simp only [Session.withoutNodeValues, Session.scope, getD_setIfInBounds, ScopeId.index_inj]]
  split
  · next h => rw [h.1] at hx; exact hx
  · exact hx

theorem replaceTree (hc : Coherent s) (hu : u.index < s.units.size) (e : EntryId) (tree : Option Tree) :
    Minds u s (after (replaceTree e tree) s) := by
  obtain ⟨r, ht, ends⟩ := after_replaceTree e tree s
  have changed : Minds u s (s.withTree e (s.numbered tree).1 (s.numbered tree).2) :=
    of_eq rfl rfl rfl rfl rfl
  have retired := of_retires (u := u) ht fun ha hq => hc.mem_of_holds ha hq
  have first := (changed.trans retired).trans (withoutNodeValues (r.moduleScopeOf e))
  rw [ends]
  split
  · exact first
  · refine first.trans (withHead ?_ e _ _)
    exact Nat.lt_of_lt_of_eq hu ht.units.symm

theorem removeModule (hc : Coherent s) (e : EntryId) :
    Minds u s (after (removeModule (some e)) s) := by
  rcases after_removeModule e s with ⟨-, ends⟩ | ⟨b, r, hb, ht, close⟩
  · rw [ends]
    exact refl u s
  · have books : ∀ {s t : Session}, Bookkeeping s t → Minds u s t := fun h =>
      of_eq h.units h.queue h.values h.scopes h.records
    have marked : Minds u b (b.withoutEntry e) := of_eq rfl rfl rfl rfl rfl
    have coherent := hc.bookkeeping hb
    have retired := of_retires (u := u) ht fun ha hq => coherent.mem_of_holds ha hq
    exact ((((books hb).trans marked).trans retired).trans (clearModule _)).trans (books close)

private theorem findName?_push (scope : Scope) {c : ScopeId} {name : String} {x : VarId}
    (h : s.findName? c name = some x) :
    ({ s with scopes := s.scopes.push scope } : Session).findName? c name = some x := by
  have old : c.index ≠ s.scopes.size := fun hc => by
    rw [findName?, scope_of_le (Nat.le_of_eq hc.symm)] at h
    cases h
  rw [findName?, scope_push, if_neg old]
  exact h

theorem withEntry (name path : String) : Minds u s (s.withEntry name path) :=
  of_kept rfl (fun _ h => h) (fun _ _ _ hx => record?_push _ hx) (fun _ _ _ hx => findName?_push _ hx)
    (fun _ _ h => h) fun _ => rfl

theorem withObserver (hu : u.index < s.units.size) : Minds u s s.withObserver := by
  have loose : Minds u s s.withLoose :=
    of_kept rfl (fun _ h => h) (fun _ _ _ h => h) (fun _ _ _ hx => findName?_push _ hx)
      (fun _ _ h => h) fun _ => rfl
  have start : u.index < s.withLoose.units.size := hu
  exact loose.trans (withUnit start none _ _)

/-- A unit that waits still waits when the turn comes to another one. -/
theorem of_pop (hc : Coherent s) {job : Job} {queue : WorkQueue}
    (hp : s.queue.pop? = some (job, queue)) (other : s.isAlive u = true → job.unit ≠ u) :
    Minds u s { s with queue } := by
  refine intro (fun ha => ha) (fun ha hq => ?_) fun _ place x types hd => .inr ?_
  · have mem := hc.mem_of_holds ha hq
    rw [Sane.of_pop hp] at mem
    rcases List.mem_cons.1 mem with first | rest
    · exact absurd (congrArg Job.unit first.symm) (other ha)
    · exact WorkQueue.holds_iff.2 ⟨_, rest, rfl, rfl⟩
  · exact ⟨by cases place <;> exact hd.stored, hd.reader, hd.same⟩

/-- Every move minds what a unit heeds, unless it is the turn of the unit or drops what waits. -/
theorem of_move {es : List Event} (hs : Sane s) (hu : u.index < s.units.size) (h : Move s es t)
    (other : ∀ turn, .ran turn ∈ es → turn.unit ≠ u) (kept : ∀ units, .dropped units ∉ es) :
    Minds u s t := by
  cases h with
  | change foreign hst => exact of_steps hs (fun _ body hd => (foreign.define _ body hd).elim) hu hst
  | addEntry name path => exact withEntry name path
  | observe => exact withObserver hu
  | takeNode => exact of_eq rfl rfl rfl rfl rfl
  | replaceTree e tree inRange => exact replaceTree hs.coherent hu e tree
  | removeModule e => exact removeModule hs.coherent e
  | release =>
    obtain ⟨liveUnits, watchers, metrics, ends⟩ := after_releaseRetired s
    rw [ends]
    refine intro (fun ha => ha) (fun ha hq => ?_) fun _ place x types hd => .inr ?_
    · exact WorkQueue.holds_iff.2
        ⟨s.job u, WorkQueue.mem_keepAlive.2 ⟨hs.coherent.mem_of_holds ha hq, ha⟩, rfl, rfl⟩
    · exact ⟨by cases place <;> exact hd.stored, hd.reader, hd.same⟩
  | pass job queue hp dead =>
    refine of_pop hs.coherent hp fun ha same => ?_
    rw [same, ha] at dead
    cases dead
  | turn job queue hp alive =>
    have start := hs.begun hp
    have popped : Minds u s { s with queue } := of_pop hs.coherent hp fun _ =>
      other _ (List.mem_singleton_self _)
    have begun : Minds u { s with queue } (s.begun queue job.unit) := of_eq rfl rfl rfl rfl rfl
    exact (popped.trans begun).trans
      (of_steps start (start.licence_sound alive) hu (steps_runBody job.unit _))
  | drop => exact absurd (List.mem_singleton_self _) (kept _)

theorem of_moves {es : List Event} (hs : Sane s) (hu : u.index < s.units.size) (h : Moves s es t)
    (other : ∀ turn, .ran turn ∈ es → turn.unit ≠ u) (kept : ∀ units, .dropped units ∉ es) :
    Minds u s t := by
  induction h with
  | refl => exact refl u s
  | tail h last ih =>
    have first := ih (fun turn hm => other turn (List.mem_append_left _ hm))
      fun units hm => kept units (List.mem_append_left _ hm)
    refine first.trans (of_move (hs.moves h) ?_ last
      (fun turn hm => other turn (List.mem_append_right _ hm))
      fun units hm => kept units (List.mem_append_right _ hm))
    exact Nat.lt_of_lt_of_le hu (Ages.of_moves hs h).units

end Minds

end Typeflow.Session
