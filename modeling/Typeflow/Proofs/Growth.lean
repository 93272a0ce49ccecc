import Typeflow.Proofs.Dependence.Life
import Typeflow.Proofs.Lattice

/-! Types only accumulate. Names go when their module is cleared and records of names are made anew, but
no record ever holds less than before, and a value keeps the records that it has. -/
namespace Typeflow

namespace ValueSet

theorem le_capAt (cap : Nat) (s : WithTop (Finset ValueId)) : s ≤ capAt cap s := by
  cases s with
  | top => exact le_rfl
  | coe s =>
    rw [capAt_coe]
    split
    · exact le_top
    · exact le_rfl

theorem members_le_union (a b : ValueSet) (cap : Nat) : a.members ≤ (a.union b cap).members := by
  rw [members_union]
  exact le_trans le_sup_left (le_capAt cap _)

end ValueSet

private theorem Variable.members_le_of_grow? {values : ValueSet} {x y : Variable} (h : x.grow? values = some y) :
    x.types.members ≤ y.types.members := by
  rw [(types_of_grow? h).1]
  exact ValueSet.members_le_union _ _ _

namespace Session

/-- Every record holds at least what it held, and every value has the records that it had. -/
structure Grows (s t : Session) : Prop where
  types : ∀ x, (s.types x).members ≤ (t.types x).members
  parts : ∀ v part x, (s.form v).record? part = some x → (t.form v).record? part = some x

namespace Grows

variable {s t r : Session}

theorem refl (s : Session) : Grows s s := ⟨fun _ => le_rfl, fun _ _ _ h => h⟩

theorem trans (h : Grows s t) (g : Grows t r) : Grows s r :=
  ⟨fun x => le_trans (h.types x) (g.types x), fun v part x hx => g.parts v part x (h.parts v part x hx)⟩

/-- A change of other parts of a session than values, in which no types are different. -/
theorem of_same (types : ∀ x, t.types x = s.types x) (values : t.values = s.values) : Grows s t := by
  refine ⟨fun x => le_of_eq (congrArg ValueSet.members (types x).symm), fun v part x hx => ?_⟩
  rwa [form, value, values]

/-- A change of values that keep their records. -/
theorem of_values (records : t.records = s.records)
    (parts : ∀ v part x, (s.form v).record? part = some x → (t.form v).record? part = some x) :
    Grows s t := by
  refine ⟨fun x => le_of_eq ?_, parts⟩
  rw [Session.types, Session.types, var, var, records]

theorem of_eq (records : t.records = s.records) (values : t.values = s.values) : Grows s t :=
  of_values records fun v part x hx => by rwa [form, value, values]

theorem of_bookkeeping (h : Bookkeeping s t) : Grows s t := of_eq h.records h.values

theorem of_queues {us : List UnitId} (h : Queues us s t) : Grows s t :=
  of_eq (by rw [h.frame]) (by rw [h.frame])

theorem of_fills (h : Fills s t) : Grows s t := of_same h.types (by rw [h.frame])

theorem of_notifies {xs : List VarId} (h : Notifies xs s t) : Grows s t :=
  of_same h.types (by rw [h.frame])

theorem newValue (value : Value) : Grows s { s with values := s.values.push value } :=
  of_values rfl fun _ _ _ hx => Minds.record?_push value hx

/-- A value may get more records, but none in the place of another. -/
theorem setValue {v : ValueId} {value : Value}
    (kept : ∀ part x, (s.form v).record? part = some x → value.form.record? part = some x) :
    Grows s (s.setValue v value) := by
  refine of_values rfl fun w part x hx => ?_
  rw [form_setValue]
  split
  · next h => exact kept part x (h.1 ▸ hx)
  · exact hx

theorem setResolving (cls : ValueId) (on : Bool) : Grows s (after (setResolving cls on) s) := by
  rcases after_setResolving cls on s with ends | ⟨c, h, ends⟩ <;> rw [ends]
  · exact refl s
  · refine setValue fun part x hx => ?_
    rw [h] at hx
    exact (Form.record?_resolving c on part).trans hx

theorem newVariable (cap : Nat) : Grows s { s with records := s.records.push { cap } } :=
  of_fills (.push s cap)

theorem attributeOf (v : ValueId) (name : String) : Grows s (after (attributeOf v name) s) := by
  rcases after_attributeOf v name s with ends | ⟨cls, attributes, h, free, ends⟩ <;> rw [ends]
  · exact refl s
  · refine (newVariable s.options.limits.memberTypes).trans (setValue fun part x hx => ?_)
    replace hx : (s.form v).record? part = some x := hx
    rw [h] at hx
    exact Form.record?_insert free hx

/-- Values are joined to what the record holds. -/
theorem addTypes (x : VarId) (values : ValueSet) : Grows s (after (addTypes x values) s) := by
  rcases addTypes_cases x values s with ⟨-, kept⟩ | ⟨record, grew, told⟩
  · rw [after_of_ok kept]
    exact refl s
  · let grown : Session := { s with records := s.records.setIfInBounds x.index record }
    have more : Grows s grown := by
      refine ⟨fun y => ?_, fun _ _ _ hx => hx⟩
      rw [Session.types, Session.types, var_setIfInBounds]
      split
      · next h =>
        rw [h.1]
        exact Variable.members_le_of_grow? grew
      · exact le_rfl
    rw [after_of_ok told]
    exact more.trans (of_notifies (notifies_notifyReaders x grown))

theorem addReader (x : VarId) (u : UnitId) : Grows s (after (addReader x u) s) := by
  refine of_same (fun y => ?_) rfl
  rw [Session.types, show (after (Session.addReader x u) s).var y = _ from Fills.var_modify s x y _]
  split
  · exact Variable.types_addReader _ _ _
  · rfl

theorem clearModule (m : ValueId) : Grows s (after (clearModule m) s) := by
  rcases after_clearModule m s with ends | ⟨p, t, -, told, ends⟩ <;> rw [ends]
  · exact refl s
  · have emptied : Grows t (t.withoutNames p.scope) := of_eq rfl rfl
    exact (of_notifies told).trans emptied

theorem enqueue (u : UnitId) (place : QueueEnd) : Grows s (after (enqueue u place) s) :=
  of_queues (queues_enqueue u place s)

theorem withUnit (entry : Option EntryId) (scope : ScopeId) (body : Body) :
    Grows s (s.withUnit entry scope body) := of_eq rfl rfl

theorem withCode (v : ValueId) (change : Code → Code) : Grows s (s.withCode v change) :=
  setValue fun part _ hx => (Form.record?_mapCode (s.form v) change part).trans hx

theorem enqueueBody (v : ValueId) (place : QueueEnd) : Grows s (after (enqueueBody v place) s) := by
  rcases after_enqueueBody v place s with ⟨-, ends⟩ |
    ⟨code, body, -, -, ⟨w, -, ends⟩ | ⟨-, ends⟩⟩ <;> rw [ends]
  · exact refl s
  · exact enqueue w place
  · exact ((withUnit _ _ _).trans (withCode v _)).trans (enqueue _ place)

theorem enqueueEntry (e : EntryId) : Grows s (after (enqueueEntry e) s) := by
  rcases after_enqueueEntry e s with ends | ⟨v, -, ends⟩ <;> rw [ends]
  · exact refl s
  · have versioned : Grows s (s.withVersion e) := of_eq rfl rfl
    exact (versioned.trans (clearModule _)).trans (enqueue v .back)

theorem of_defines {kind : ValueKind} {w : UnitId} {body : Body} (h : Defines kind w body s t) :
    Grows s t := by
  refine ⟨fun x => le_of_eq (congrArg ValueSet.members (h.types x).symm), fun v part x hx => ?_⟩
  rwa [h.form v (Minds.ne_size_of_record? hx)]

theorem of_step {L : Licence} (h : Step L s t) : Grows s t := by
  have defined : ∀ {kind : ValueKind} {w : UnitId} {body : Body} {make : Analysis ValueId},
      Makes kind w body make → Grows s (after (definitionAt w body.node kind make) s) := by
    intro kind w body make makes
    rcases definitionAt_run makes s with ⟨values, -, run⟩ | ⟨-, t, run, defines⟩ <;>
      rw [after_of_ok run]
    · exact refl s
    · exact of_defines defines
  cases h with
  | bookkeep h => exact of_bookkeeping h
  | makeValue value h free => exact newValue value
  | amendValue v value h rest => exact setValue fun part x hx => by rwa [h]
  | resolve cls on => exact setResolving cls on
  | attributeOf v name => exact attributeOf v name
  | newVariable cap => exact newVariable cap
  | nameIn scope name => exact of_fills (.nameIn scope name s)
  | addTypes x values => exact addTypes x values
  | addReader x reader => exact addReader x reader
  | addAssignment x place => exact of_fills (.addAssignment x place s)
  | addReference x place => exact of_fills (.addReference x place s)
  | keepValue scope node values h => exact of_eq rfl rfl
  | enqueue v place => exact enqueue v place
  | clearModule m => exact clearModule m
  | enqueueBody v place => exact enqueueBody v place
  | enqueueEntry e => exact enqueueEntry e
  | defineFunction w body name params h kind => exact defined (makes_newFunction w body name params)
  | defineClass w body name h kind => exact defined (makes_newClass w body name)

theorem of_steps {L : Licence} (h : Steps L s t) : Grows s t :=
  h.induct (P := Grows s) (fun _ _ next grows => grows.trans (of_step next)) (refl s)

theorem of_retires {e : EntryId} {detaching : Bool} (h : Retires e detaching s t) : Grows s t := by
  refine of_values (by rw [h.frame]) fun v part x hx => ?_
  rw [h.form]
  split
  · exact (Form.record?_mapCode _ _ _).trans hx
  · exact hx

theorem replaceTree (e : EntryId) (tree : Option Tree) : Grows s (after (replaceTree e tree) s) := by
  obtain ⟨r, ht, ends⟩ := after_replaceTree e tree s
  have changed : Grows s (s.withTree e (s.numbered tree).1 (s.numbered tree).2) := of_eq rfl rfl
  have emptied : Grows r (r.withoutNodeValues (r.moduleScopeOf e)) := of_eq rfl rfl
  have first := (changed.trans (of_retires ht)).trans emptied
  rw [ends]
  split
  · exact first
  · exact first.trans (of_eq rfl rfl)

theorem removeModule (e : EntryId) : Grows s (after (removeModule (some e)) s) := by
  rcases after_removeModule e s with ⟨-, ends⟩ | ⟨b, r, hb, ht, close⟩
  · rw [ends]
    exact refl s
  · have marked : Grows b (b.withoutEntry e) := of_eq rfl rfl
    exact ((((of_bookkeeping hb).trans marked).trans (of_retires ht)).trans (clearModule _)).trans
      (of_bookkeeping close)

theorem of_move {es : List Event} (h : Move s es t) : Grows s t := by
  cases h with
  | change foreign hst => exact of_steps hst
  | addEntry name path => exact of_values rfl fun _ _ _ hx => Minds.record?_push _ hx
  | observe => exact of_eq rfl rfl
  | takeNode => exact of_eq rfl rfl
  | replaceTree e tree inRange => exact replaceTree e tree
  | removeModule e => exact removeModule e
  | release =>
    obtain ⟨liveUnits, watchers, metrics, ends⟩ := after_releaseRetired s
    rw [ends]
    exact of_eq rfl rfl
  | pass job queue hp dead => exact of_eq rfl rfl
  | turn job queue hp alive =>
    have begun : Grows s (s.begun queue job.unit) := of_eq rfl rfl
    exact begun.trans (of_steps (steps_runBody job.unit _))
  | drop => exact of_eq rfl rfl

/-- Nothing that was found about a record is ever lost. -/
theorem of_moves {es : List Event} (h : Moves s es t) : Grows s t :=
  h.induct (P := fun _ t => Grows s t) (fun _ _ _ _ last grows => grows.trans (of_move last)) (refl s)

end Grows

end Session

end Typeflow
