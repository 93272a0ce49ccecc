import Typeflow.Proofs.Realm.Within

/-! The basic actions on names, scopes, units and definitions consist of small changes. -/
namespace Typeflow.Session

/-- Definitions are not shared, whatever becomes of their code. -/
theorem isShared_mapCode {form : Form} {code : Code} (h : form.code? = some code) (change : Code → Code) :
    (form.mapCode change).isShared = false := by
  cases form <;> first | rfl | cases h

/-- Definitions are no wrappers. -/
theorem kind_of_code? {form : Form} {code : Code} (h : form.code? = some code) :
    form.kind ≠ .specialized := by
  cases form <;> first | cases h; done | (intro kind; cases kind)

theorem instanceOf?_mapCode (form : Form) (change : Code → Code) :
    (form.mapCode change).instanceOf? = form.instanceOf? := by
  cases form <;> rfl

/-- A change of code leaves the other parts of a definition. -/
theorem Realm.form_mapCode {R : Realm} (form : Form) (change : Code → Code) :
    R.form (form.mapCode change) ↔ R.form form := by
  cases form <;> rfl

/-- The action proceeds by small changes and yields what is right. -/
abbrev Fine (R : Realm) {α : Type} (m : Analysis α) (Q : α → Prop) : Prop := Within R (Change R) m Q

namespace Fine

open Within

variable {R : Realm}

theorem of_beside {α : Type} {m : Analysis α} (h : ∀ s, Beside s (after m s)) :
    Fine R m fun _ => True :=
  of_change fun s _ => .beside (h s)

theorem count (name : String) (delta : Nat) : Fine R (Session.count name delta) fun _ => True :=
  of_beside fun _ => .of_same rfl rfl rfl rfl rfl

theorem writeLog (category : LogCategory) (message : String) :
    Fine R (Session.writeLog category message) fun _ => True :=
  of_beside fun _ => .of_same rfl rfl rfl rfl rfl

private theorem beside_enqueue (u : UnitId) (place : QueueEnd) (s : Session) :
    Beside s (after (Session.enqueue u place) s) := by
  rcases enqueue_cases u place s with ⟨stays, _⟩ | ⟨queue, metrics, _, _, ends⟩
  · rw [stays]
    exact .of_same rfl rfl rfl rfl rfl
  · rw [ends]
    exact .of_same rfl rfl rfl rfl rfl

theorem enqueue (u : UnitId) (place : QueueEnd) : Fine R (Session.enqueue u place) fun _ => True :=
  of_beside (beside_enqueue u place)

theorem newVariable (cap : Nat) : Fine R (Session.newVariable cap) R.record :=
  fun s hs => ⟨.single (.newRecord cap), fun _ _ h => by
    cases h
    exact hs.newRecord _ (Nat.le_refl _)⟩

theorem setVariable (x : VarId) {record : Variable} (h : R.record x → R.set record.types) :
    Fine R (Session.setVariable x record) fun _ => True :=
  of_change fun _ _ => .setRecord x record h

theorem notifyReaders (x : VarId) : Fine R (Session.notifyReaders x) fun _ => True :=
  .read fun _ hs => .bind (setVariable x (hs.types x)) fun _ _ => .forM fun _ _ => enqueue _ _

theorem addTypes {x : VarId} {values : ValueSet} (h : R.set values) :
    Fine R (Session.addTypes x values) fun _ => True := by
  refine .read fun s hs => ?_
  cases hg : (s.var x).grow? values with
  | none => exact .pure trivial
  | some record =>
    have grown : R.record x → R.set record.types := by
      intro hx
      rw [(Variable.types_of_grow? hg).1]
      exact Realm.set_union (hs.types x hx) h _
    exact .bind (setVariable x grown) fun _ _ => .bind (notifyReaders x) fun _ _ => .pure trivial

theorem addReader (x : VarId) (reader : UnitId) : Fine R (Session.addReader x reader) fun _ => True := by
  refine of_change fun s _ => .noteRecord x _ fun record => ?_
  exact record.types_addReader s.isAlive reader

theorem addAssignment (x : VarId) (place : Location) :
    Fine R (Session.addAssignment x place) fun _ => True :=
  of_change fun _ _ => .noteRecord x _ fun _ => rfl

theorem addReference (x : VarId) (place : Location) :
    Fine R (Session.addReference x place) fun _ => True :=
  of_change fun _ _ => .noteRecord x _ fun _ => rfl

private theorem names_insert {s : Session} (h : R.Closed s) (c : ScopeId) (name : String) {x : VarId}
    (hx : R.record x) (other : String) (y : VarId)
    (hy : ((s.scope c).names.insert name x).find? other = some y) : R.record y := by
  rw [NameMap.find?_insert] at hy
  split at hy
  · cases hy
    exact hx
  · exact h.names c other y hy

theorem nameIn (c : ScopeId) (name : String) : Fine R (Session.nameIn c name) R.record := by
  intro s hs
  cases h : s.findName? c name with
  | some x =>
    have run := nameIn_of_some h
    rw [after_of_ok run, run]
    exact ⟨.refl, fun a t ha => by cases ha; exact hs.names c name x h⟩
  | none =>
    have run := nameIn_of_none h
    rw [after_of_ok run, run]
    have made : R.record ⟨s.records.size⟩ := hs.newRecord _ (Nat.le_refl _)
    have kept : ∀ other x, s.findName? c other = some x →
        ((s.scope c).names.insert name ⟨s.records.size⟩).find? other = some x := by
      intro other x hx
      rw [NameMap.find?_insert, if_neg (fun same => by rw [same, h] at hx; cases hx)]
      exact hx
    refine ⟨.tail (.single (.newRecord (s.scope c).cap)) ?_, fun a t ha => by cases ha; exact made⟩
    exact .setScope (s := { s with records := s.records.push { cap := (s.scope c).cap } }) c _
      (s.scope c).nodeValues kept (names_insert hs c name made) (hs.nodes c)

/-- The books of a module are kept without a new label. -/
theorem beside_modify {s t : Session} (e : EntryId) {f : Entry → Entry}
    (label : ∀ entry, (f entry).label = entry.label)
    (frame : t = { s with entries := s.entries.modify e.index f, units := t.units, liveUnits := t.liveUnits })
    (size : s.units.size ≤ t.units.size)
    (unit : ∀ u : UnitId, u.index < s.units.size → t.unit u = s.unit u) : Beside s t := by
  have same : t.surroundings = s.surroundings := by
    rw [frame]
    simp only [surroundings, outside, labels_modify s.entries e.index label]
    rfl
  have tables : t.memoTables = s.memoTables := by
    rw [frame]
    rfl
  have host : t.host = s.host := by rw [frame]
  have shelf : t.shelf = s.shelf := by
    rw [frame]
    rfl
  exact .of_units same tables size unit (.of_same (.of_eq host) shelf)

theorem updateEntry (e : EntryId) {f : Entry → Entry} (label : ∀ entry, (f entry).label = entry.label) :
    Fine R (Session.updateEntry e f) fun _ => True :=
  of_beside fun _ => beside_modify e label rfl (Nat.le_refl _) fun _ _ => rfl

theorem setNodeValue (c : ScopeId) (n : NodeId) {values : ValueSet} (h : R.set values) :
    Fine R (Session.setNodeValue c n values) fun _ => True := by
  refine of_change fun s hs => .setScope c (s.scope c).names _ (fun _ _ hx => hx) (hs.names c)
    fun m found hf => ?_
  rw [lookup_keepNodeValue] at hf
  split at hf
  · cases hf
    exact h
  · exact hs.nodes c m found hf

theorem setResolving (cls : ValueId) (on : Bool) :
    Fine R (Session.setResolving cls on) fun _ => True := by
  refine fun s hs => ⟨?_, fun _ _ _ => trivial⟩
  rcases after_setResolving cls on s with ends | ⟨c, h, ends⟩
  · rw [ends]
  · rw [ends]
    refine .single (.setForm cls _ (by rw [h]; rfl) rfl (by rw [h]; rintro ⟨⟩) nofun (by rw [h]; rfl) fun hv => ?_)
    have parts := hs.form cls hv
    rw [h] at parts
    exact parts

theorem attributeOf {v : ValueId} (hv : R.value v) (name : String) :
    Fine R (Session.attributeOf v name) fun found => ∀ x, found = some x → R.record x := by
  refine fun s hs => ⟨?_, fun found t ht => ?_⟩
  · rcases after_attributeOf v name s with ends | ⟨cls, attributes, h, _, ends⟩
    · rw [ends]
    · rw [ends]
      refine .tail (.single (.newRecord _)) (.setForm v _ ?_ rfl ?_ (fun other x hx => ?_) ?_ fun _ => ?_)
      · change _ = (s.form v).kind
        rw [h]
        rfl
      · change (s.form v).kind ≠ _
        rw [h]
        rintro ⟨⟩
      · change (s.form v).record? _ = _ ∨ _
        replace hx : (attributes.insert name ⟨s.records.size⟩).find? other = some x := hx
        rw [NameMap.find?_insert] at hx
        split at hx
        · cases hx
          exact .inr (by simp)
        · rw [h]
          exact .inl hx
      · change _ = (s.form v).instanceOf?
        rw [h]
        rfl
      · have parts := hs.form v hv
        rw [h] at parts
        refine ⟨parts.1, fun other x hx => ?_⟩
        rw [NameMap.find?_insert] at hx
        split at hx
        · cases hx
          exact hs.newRecord _ (Nat.le_refl _)
        · exact parts.2 other x hx
  · have parts := hs.form v hv
    cases h : s.form v with
    | userInstance cls attributes =>
      rw [h] at parts
      cases hx : attributes.find? name with
      | some x =>
        simp only [Session.attributeOf, read_run, h, hx] at ht
        cases ht
        rintro _ ⟨⟩
        exact parts.2 name x hx
      | none =>
        simp only [Session.attributeOf, read_run, h, hx] at ht
        cases ht
        rintro _ ⟨⟩
        exact hs.newRecord _ (Nat.le_refl _)
    | _ =>
      simp only [Session.attributeOf, read_run, h] at ht
      cases ht
      rintro _ ⟨⟩

/-- A new unit is noted in the books of its module. -/
theorem beside_withUnit (s : Session) (entry : Option EntryId) (scope : ScopeId) (body : Body) :
    Beside s (s.withUnit entry scope body) := by
  have size : s.units.size ≤ (s.withUnit entry scope body).units.size := by simp [withUnit]
  have unit : ∀ u : UnitId, u.index < s.units.size →
      (s.withUnit entry scope body).unit u = s.unit u := by
    intro u hu
    rw [unit_withUnit, if_neg (Nat.ne_of_lt hu)]
  cases entry with
  | none => exact .of_units rfl rfl size unit (.of_same (.of_eq rfl) rfl)
  | some e =>
    by_cases gone : s.isGone (some e) = true
    · have frame : s.withUnit (some e) scope body =
          { s with
            units := (s.withUnit (some e) scope body).units
            liveUnits := (s.withUnit (some e) scope body).liveUnits } := by
        simp only [withUnit, if_pos gone]
      refine .of_units ?_ ?_ size unit (.of_same (.of_eq ?_) ?_)
      · rw [frame]
        rfl
      · rw [frame]
        rfl
      · rw [frame]
      · rw [frame]
        rfl
    · refine beside_modify e (f := fun entry => { entry with units := entry.units ++ [⟨s.units.size⟩] })
        (fun _ => rfl) ?_ size unit
      simp only [withUnit, if_neg gone]

/-- A definition gets its unit. -/
theorem enqueueBody (v : ValueId) (place : QueueEnd) :
    Fine R (Session.enqueueBody v place) fun _ => True := by
  refine fun s hs => ⟨?_, fun _ _ _ => trivial⟩
  rcases after_enqueueBody v place s with ⟨_, ends⟩ | ⟨code, body, hc, _, ⟨u, _, ends⟩ | ⟨_, ends⟩⟩
  · rw [ends]
  · rw [ends]
    exact .single (.beside (beside_enqueue u place s))
  · rw [ends]
    let made := s.withUnit code.entry code.scope body
    have first : Change R s made := .beside (beside_withUnit s code.entry code.scope body)
    refine .tail (.tail (.single first) ?_) (.beside (beside_enqueue _ place _))
    refine .setForm (s := made) v _ (kind_mapCode _ _) (isShared_mapCode hc _) (kind_of_code? hc)
      (fun name x hx => .inl ((Form.record?_mapCode _ _ _).symm.trans hx)) (instanceOf?_mapCode _ _) fun hv => ?_
    exact (Realm.form_mapCode _ _).2 (hs.form v hv)

theorem newScope {scope : Scope} (owner : ∀ v, scope.owner = some v → R.value v)
    (names : scope.names = {}) (nodes : scope.nodeValues = []) :
    Fine R (Session.newScope scope) fun _ => True :=
  of_change fun _ _ => .newScope scope owner names nodes

/-- A value that is not shared may be made at any time. -/
theorem newValue (name description : String) (type : MemberType) {form : Form}
    (own : form.isShared = false) (h : R.form form) (bare : form.kind ≠ .userInstance) :
    Fine R (Session.newValue name description type form) R.value :=
  fun s hs => ⟨.single (.make name description type form own bare h), fun _ _ hv => by
    cases hv
    exact hs.newValue _ (Nat.le_refl _)⟩

theorem trackDefinition (entry : Option EntryId) (v : ValueId) :
    Fine R (Session.trackDefinition entry v) fun _ => True := by
  cases entry with
  | none => exact .pure trivial
  | some e => exact updateEntry e fun _ => rfl

theorem newFunction (u : UnitId) (body : Body) (name : String) (params : List (String × ParamKind)) :
    Fine R (Session.newFunction u body name params) R.value := by
  refine .read fun s hs => .bind (newScope ?_ rfl rfl) fun scope _ => .bind (newVariable _) fun x hx =>
    .bind (.forM fun p _ => .bind (nameIn scope p.1) fun y _ => addAssignment y _) fun _ _ =>
      .bind (newValue _ _ _ rfl hx nofun) fun v hv => .bind (trackDefinition _ v) fun _ _ => .pure hv
  rintro _ ⟨⟩
  exact hs.newValue _ (Nat.le_refl _)

theorem newClass (u : UnitId) (body : Body) (name : String) :
    Fine R (Session.newClass u body name) R.value := by
  refine .read fun s hs => .bind (newScope ?_ rfl rfl) fun scope _ => .bind (newVariable _) fun x hx =>
    .bind (newValue _ _ _ rfl hx nofun) fun v hv => .bind (trackDefinition _ v) fun _ _ => .pure hv
  rintro _ ⟨⟩
  exact hs.newValue _ (Nat.le_refl _)

theorem definitionAt (u : UnitId) (node : Node) (kind : ValueKind) {make : Analysis ValueId}
    (h : Fine R make R.value) :
    Fine R (Session.definitionAt u node kind make) fun made => ∀ d, made = some d → R.value d.value := by
  have values : ∀ scope, Fine R (nodeValueAnd scope node.id do return (.single (← make), ()))
      fun found => R.set found.1 := by
    intro scope
    refine .read fun s hs => ?_
    cases hl : (s.scope scope).nodeValues.lookup node.id with
    | some found => exact .pure (hs.nodes _ _ _ hl)
    | none =>
      refine .bind (setNodeValue _ _ Realm.set_empty) fun _ _ => .bind (Q := fun found => R.set found.1) ?_
        fun found hf => .bind (setNodeValue _ _ hf) fun _ _ => .pure hf
      exact .bind h fun v hv => .pure (Realm.set_single (Realm.found_some hv))
  refine .read fun s _ => .bind (values _) fun found hf => .read fun t _ => .pure fun d hd => ?_
  obtain ⟨v, hv, rfl⟩ := Option.map_eq_some_iff.1 hd
  exact hf v (List.mem_of_find?_eq_some hv)

end Fine

/-- A small change, or the names of a scope go. -/
inductive Clearing (R : Realm) (s : Session) : Session → Prop
  | change {t : Session} (c : Change R s t) : Clearing R s t
  | names (c : ScopeId) : Clearing R s (after (clearNames c) s)

instance (R : Realm) : R.Guards (Clearing R) where
  closed := by
    rintro s t hs (c | c)
    · exact hs.change c
    · exact hs.clearNames c

/-- The action proceeds by small changes and by forgetting names. -/
abbrev Clears (R : Realm) {α : Type} (m : Analysis α) (Q : α → Prop) : Prop := Within R (Clearing R) m Q

namespace Clears

open Within

variable {R : Realm}

theorem of_fine {α : Type} {m : Analysis α} {Q : α → Prop} (h : Fine R m Q) : Clears R m Q :=
  fun s hs => ⟨Relation.ReflTransGen.mono (fun _ _ c => .change c) _ _ (h s hs).1, (h s hs).2⟩

theorem clearModule (m : ValueId) : Clears R (Session.clearModule m) fun _ => True := by
  refine .read fun s _ => ?_
  split
  · exact .read fun _ _ => .bind (.forM fun x _ => of_fine (.notifyReaders x)) fun _ _ =>
      of_change fun _ _ => .names _
  · exact .pure trivial

theorem enqueueEntry (e : EntryId) : Clears R (Session.enqueueEntry e) fun _ => True := by
  refine .read fun s _ => .ite (.pure trivial) ?_
  split
  · exact .pure trivial
  · exact .bind (of_fine (.updateEntry _ fun _ => rfl)) fun _ _ => .bind (clearModule _) fun _ _ =>
      of_fine (.enqueue _ _)

end Clears

end Typeflow.Session
