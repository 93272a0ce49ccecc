import Typeflow.Proofs.Age

/-! What a unit has read stays as it was, and the unit stays among the readers, until the unit is queued to
be run again. -/
namespace Typeflow

namespace NameMap

theorem mem_values_of_find? {α : Type} {m : NameMap α} {name : String} {a : α}
    (h : m.find? name = some a) : a ∈ m.values := by
  have found : ∀ pairs : List (String × α), lookupPair name pairs = some a →
      a ∈ pairs.map (·.2) := by
    intro pairs
    induction pairs with
    | nil =>
      intro h
      cases h
    | cons pair rest ih =>
      obtain ⟨key, value⟩ := pair
      intro h
      rw [lookupPair] at h
      split at h
      · cases h
        exact List.mem_cons_self
      · exact List.mem_cons_of_mem _ (ih h)
  exact found m.toList h

end NameMap

namespace Variable

variable {alive : UnitId → Bool} {x : Variable} {u : UnitId}

/-- A unit that may run is a reader once it is added, and stays one when others are. -/
theorem mem_addReader_of {reader : UnitId} (ha : alive u = true) (hu : u ∈ x.readers ++ [reader]) :
    u ∈ (x.addReader alive reader).readers := by
  rcases addReader_cases alive reader x with ⟨there, same⟩ | ⟨-, -, dependents, listed, added⟩
  · rw [same]
    rcases List.mem_append.1 hu with hu | hu
    · exact hu
    · rw [List.mem_singleton.1 hu] at ha ⊢
      rcases there with dead | there
      · rw [ha] at dead
        cases dead
      · exact there
  · rw [← listed] at hu
    rw [added]
    split
    · exact mem_readers_sweep.2 ⟨hu, ha⟩
    · exact hu

private theorem mem_addReader_of_mem {reader : UnitId} (ha : alive u = true) (hu : u ∈ x.readers) :
    u ∈ (x.addReader alive reader).readers := mem_addReader_of ha (List.mem_append_left _ hu)

theorem mem_addReader (ha : alive u = true) : u ∈ (x.addReader alive u).readers :=
  mem_addReader_of ha (List.mem_append_right _ (List.mem_singleton_self u))

end Variable

namespace Session

/-- Where a record is stored. -/
inductive Place where
  | name (scope : ScopeId) (name : String)
  | part (v : ValueId) (part : Part)

/-- The record in a place. -/
def recordAt? (s : Session) : Place → Option VarId
  | .name c name => s.findName? c name
  | .part v part => (s.form v).record? part

/-- A place has a record with some types, and the unit is among its readers. -/
structure Depends (s : Session) (u : UnitId) (place : Place) (x : VarId) (types : ValueSet) : Prop where
  stored : s.recordAt? place = some x
  reader : u ∈ (s.var x).readers
  same : s.types x = types

/-- If the unit may run, it waits to be run or depends on what it has read. -/
def Heeds (s : Session) (u : UnitId) (place : Place) (x : VarId) (types : ValueSet) : Prop :=
  s.isAlive u = true → s.queue.holds (s.job u) = true ∨ s.Depends u place x types

/-- A change after which a unit that may run still waits if it did, and waits or depends on what it
depended on. -/
structure Minds (u : UnitId) (s t : Session) : Prop where
  intro ::
  alive : t.isAlive u = true → s.isAlive u = true
  waits : t.isAlive u = true → s.queue.holds (s.job u) = true → t.queue.holds (t.job u) = true
  depends : t.isAlive u = true → ∀ place x types, s.Depends u place x types →
    t.queue.holds (t.job u) = true ∨ t.Depends u place x types

namespace Minds

variable {u : UnitId} {s t r : Session}

theorem refl (u : UnitId) (s : Session) : Minds u s s :=
  ⟨fun h => h, fun _ h => h, fun _ _ _ _ h => .inr h⟩

theorem trans (h : Minds u s t) (g : Minds u t r) : Minds u s r where
  alive ha := h.alive (g.alive ha)
  waits ha hq := g.waits ha (h.waits (g.alive ha) hq)
  depends ha place x types hd := by
    rcases h.depends (g.alive ha) place x types hd with hq | hd
    · exact .inl (g.waits ha hq)
    · exact g.depends ha place x types hd

private theorem unit_eq (units : t.units = s.units) (u : UnitId) : t.unit u = s.unit u := by
  rw [Session.unit, units]
  rfl

/-- A change that keeps units, places, readers and types, and takes nothing off the queue. -/
theorem of_kept (units : t.units = s.units)
    (queue : ∀ job, s.queue.holds job = true → t.queue.holds job = true)
    (part : ∀ v part x, (s.form v).record? part = some x → (t.form v).record? part = some x)
    (name : ∀ c name x, s.findName? c name = some x → t.findName? c name = some x)
    (readers : ∀ x, s.isAlive u = true → u ∈ (s.var x).readers → u ∈ (t.var x).readers)
    (types : ∀ x, t.types x = s.types x) : Minds u s t := by
  have unit := unit_eq units u
  have alive : t.isAlive u = s.isAlive u := by rw [isAlive, unit]; rfl
  refine intro (fun ha => by rwa [← alive]) (fun _ hq => ?_) fun ha place x types' hd => .inr ?_
  · rw [job, unit]
    exact queue _ hq
  · refine ⟨?_, readers x (by rwa [← alive]) hd.reader, (types x).trans hd.same⟩
    have stored := hd.stored
    cases place with
    | name c n => exact name c n x stored
    | part v p => exact part v p x stored

/-- A change of other parts of a session. -/
theorem of_eq (units : t.units = s.units) (queue : t.queue = s.queue) (values : t.values = s.values)
    (scopes : t.scopes = s.scopes) (records : t.records = s.records) : Minds u s t := by
  refine of_kept units (fun _ h => by rwa [queue]) (fun v _ _ h => ?_) (fun c _ _ h => ?_)
    (fun x _ h => ?_) fun x => ?_
  · rwa [form, value, values]
  · rwa [findName?, scope, scopes]
  · rwa [var, records]
  · rw [Session.types, var, records]
    rfl

theorem of_queues {us : List UnitId} (h : Queues us s t) : Minds u s t :=
  of_kept (by rw [h.frame]) (fun _ hj => h.holds hj) (fun _ _ _ hx => by rw [h.frame]; exact hx)
    (fun _ _ _ hx => by rw [h.frame]; exact hx) (fun x _ hu => by rw [h.frame]; exact hu)
    fun _ => by rw [h.frame]; rfl

theorem of_fills (h : Fills s t) : Minds u s t :=
  of_kept (by rw [h.frame]) (fun _ hj => by rw [h.frame]; exact hj)
    (fun _ _ _ hx => by rw [h.frame]; exact hx) h.names (fun x _ hu => by rwa [h.readers]) h.types

/-- A value that has records is there. -/
theorem ne_size_of_record? {v : ValueId} {part : Part} {x : VarId}
    (h : (s.form v).record? part = some x) : v.index ≠ s.values.size := by
  intro hv
  rw [form_of_le (Nat.le_of_eq hv.symm)] at h
  cases part <;> cases h

theorem record?_push {v : ValueId} {part : Part} {x : VarId} (value : Value)
    (h : (s.form v).record? part = some x) :
    (({ s with values := s.values.push value } : Session).form v).record? part = some x := by
  rw [form, Session.value, getD_push, if_neg (ne_size_of_record? h)]
  exact h

/-- New values may have any records. -/
theorem newValue (value : Value) : Minds u s { s with values := s.values.push value } :=
  of_kept rfl (fun _ h => h) (fun _ _ _ hx => record?_push value hx) (fun _ _ _ h => h)
    (fun _ _ h => h) fun _ => rfl

/-- A value may get more records, but none in the place of another. -/
theorem setValue {v : ValueId} {value : Value}
    (grows : ∀ part x, (s.form v).record? part = some x → value.form.record? part = some x) :
    Minds u s (s.setValue v value) := by
  refine of_kept rfl (fun _ h => h) (fun w part x hx => ?_) (fun _ _ _ h => h) (fun _ _ h => h)
    fun _ => rfl
  rw [form_setValue]
  split
  · next h => exact grows part x (h.1 ▸ hx)
  · exact hx

theorem setResolving (cls : ValueId) (on : Bool) : Minds u s (after (setResolving cls on) s) := by
  rcases after_setResolving cls on s with ends | ⟨c, h, ends⟩ <;> rw [ends]
  · exact refl u s
  · refine setValue fun part x hx => ?_
    rw [h] at hx
    exact (Form.record?_resolving c on part).trans hx

theorem newVariable (cap : Nat) : Minds u s { s with records := s.records.push { cap } } :=
  of_fills (.push s cap)

theorem attributeOf (v : ValueId) (name : String) : Minds u s (after (attributeOf v name) s) := by
  rcases after_attributeOf v name s with ends | ⟨cls, attributes, h, free, ends⟩ <;> rw [ends]
  · exact refl u s
  · refine (newVariable s.options.limits.memberTypes).trans (setValue fun part x hx => ?_)
    replace hx : (s.form v).record? part = some x := hx
    rw [h] at hx
    exact Form.record?_insert free hx

theorem addReader (x : VarId) (reader : UnitId) : Minds u s (after (addReader x reader) s) := by
  have look : ∀ y, (after (Session.addReader x reader) s).var y =
      if y = x ∧ x.index < s.records.size then (s.var y).addReader s.isAlive reader else s.var y :=
    fun y => Fills.var_modify s x y _
  refine of_kept rfl (fun _ h => h) (fun _ _ _ h => h) (fun _ _ _ h => h) (fun y ha hu => ?_) fun y => ?_
  · rw [look]
    split
    · exact Variable.mem_addReader_of_mem ha hu
    · exact hu
  · rw [types, look]
    split
    · exact Variable.types_addReader _ _ _
    · rfl

theorem addAssignment (x : VarId) (place : Location) : Minds u s (after (addAssignment x place) s) :=
  of_fills (.addAssignment x place s)

theorem addReference (x : VarId) (place : Location) : Minds u s (after (addReference x place) s) :=
  of_fills (.addReference x place s)

theorem nameIn (c : ScopeId) (name : String) : Minds u s (after (nameIn c name) s) :=
  of_fills (.nameIn c name s)

theorem setNodeValue (c : ScopeId) (node : NodeId) (values : ValueSet) :
    Minds u s (after (setNodeValue c node values) s) :=
  of_kept rfl (fun _ h => h) (fun _ _ _ h => h)
    (fun d name x hx => by rw [findName?_setNodeValue]; exact hx) (fun _ _ h => h) fun _ => rfl

/-- A record that changes is told to its readers. -/
theorem addTypes (x : VarId) (values : ValueSet) : Minds u s (after (addTypes x values) s) := by
  rcases after_addTypes x values s with ends | ⟨record, readers, told⟩
  · rw [ends]
    exact refl u s
  · let grown : Session := { s with records := s.records.setIfInBounds x.index record }
    have look : ∀ y, grown.var y = if y = x ∧ x.index < s.records.size then record else s.var y :=
      fun y => var_setIfInBounds s x y record
    refine intro (fun ha => by rwa [told.isAlive] at ha) (fun _ hq => ?_) fun ha place y types hd => ?_
    · rw [told.job]
      exact told.holds hq
    · have alive : grown.isAlive u = true := by rwa [told.isAlive] at ha
      have reader : u ∈ (grown.var y).readers := by
        rw [look]
        split
        · next h => rw [readers, ← h.1]; exact hd.reader
        · exact hd.reader
      by_cases h : y = x ∧ x.index < s.records.size
      · left
        rw [told.job]
        rw [h.1] at reader
        exact told.held x (List.mem_singleton_self x) u reader alive
      · right
        have stored : (after (Session.addTypes x values) s).recordAt? place = some y := by
          rw [told.frame]
          cases place <;> exact hd.stored
        refine ⟨stored, told.readers y u reader alive, ?_⟩
        rw [told.types, Session.types, look, if_neg h]
        exact hd.same

/-- The readers of names that go are told. -/
theorem clearModule (m : ValueId) : Minds u s (after (clearModule m) s) := by
  rcases after_clearModule m s with ends | ⟨p, t, -, told, ends⟩ <;> rw [ends]
  · exact refl u s
  · refine intro (fun ha => by rwa [← told.isAlive]) (fun _ hq => ?_) fun ha place x types hd => ?_
    · exact (congrArg t.queue.holds (told.job u)).trans (told.holds hq)
    · have alive : s.isAlive u = true := by rwa [← told.isAlive]
      have stays : x ∈ (s.scope p.scope).names.values ∨
          (t.withoutNames p.scope).recordAt? place = some x := by
        have stored := hd.stored
        cases place with
        | part v part =>
          right
          rw [told.frame]
          exact stored
        | name c n =>
          by_cases hc : c = p.scope
          · exact .inl (NameMap.mem_values_of_find? (hc ▸ stored))
          · right
            rw [told.frame]
            simp only [recordAt?, findName?, withoutNames, Session.scope, getD_setIfInBounds,
              ScopeId.index_inj, hc, false_and, if_false]
            exact stored
      rcases stays with named | stored
      · left
        exact (congrArg t.queue.holds (told.job u)).trans (told.held x named u hd.reader alive)
      · right
        exact ⟨stored, told.readers x u hd.reader alive, (told.types x).trans hd.same⟩

theorem enqueue (v : UnitId) (place : QueueEnd) : Minds u s (after (enqueue v place) s) :=
  of_queues (queues_enqueue v place s)

theorem enqueueEntry (e : EntryId) : Minds u s (after (enqueueEntry e) s) := by
  rcases after_enqueueEntry e s with ends | ⟨v, -, ends⟩ <;> rw [ends]
  · exact refl u s
  · have versioned : Minds u s (s.withVersion e) := of_eq rfl rfl rfl rfl rfl
    exact (versioned.trans (clearModule _)).trans (enqueue v .back)

end Minds

end Session

end Typeflow
