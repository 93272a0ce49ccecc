import Typeflow.Proofs.Binding.Supplied
import Typeflow.Proofs.Identity.Remember
import Typeflow.Proofs.Reanalysis

/-! Members that programs can assign: the names of modules and classes, and the attributes of instances. Each
has its place, and what is assigned to it is among its types from then on. -/
namespace Typeflow

private theorem ValueSet.members_le_union_right (a b : ValueSet) (cap : Nat) : b.members ≤ (a.union b cap).members := by
  rw [members_union]
  exact le_trans le_sup_right (le_capAt cap _)

/-- Values that change nothing are there already. -/
theorem Variable.members_le_of_full {values : ValueSet} {x : Variable} (h : x.grow? values = none) :
    values.members ≤ x.types.members := by
  simp only [grow?] at h
  split at h
  · next same =>
    have := ValueSet.members_le_union_right x.types values x.cap
    rwa [same] at this
  · cases h

/-- The place of a member of a value, if programs can assign to it. -/
def Form.memberPlace? (form : Form) (v : ValueId) (name : String) : Option Session.Place :=
  match form with
  | .module p => some (.name p.scope name)
  | .userClass c => some (.name c.scope name)
  | .userInstance .. => some (.part v (.member name))
  | _ => none

namespace Session

variable {s t r : Session} {v : ValueId} {name : String} {place : Place}

/-- The place of a member of a value, if programs can assign to it. -/
def memberPlace? (s : Session) (v : ValueId) (name : String) : Option Place := (s.form v).memberPlace? v name

theorem memberPlace?_of_instance (kind : (s.form v).kind = .userInstance) (name : String) :
    s.memberPlace? v name = some (.part v (.member name)) := by
  rw [memberPlace?]
  cases form : s.form v <;> rw [form] at kind <;> cases kind
  rfl

section Total

theorem total_nameIn (c : ScopeId) (name : String) : Total (nameIn c name) := by
  refine .read fun s => ?_
  split
  · exact .pure _
  · exact .read fun _ => .bind (.modifyGet _) fun _ => .read fun _ => .bind (.modify _) fun _ => .pure _

theorem total_attributeOf (v : ValueId) (name : String) : Total (attributeOf v name) := by
  refine .read fun s => ?_
  split
  · split
    · exact .pure _
    · exact .read fun _ => .bind (.modifyGet _) fun _ => .bind (.modify _) fun _ => .pure _
  · exact .pure _

theorem total_addTypes (x : VarId) (values : ValueSet) : Total (addTypes x values) := by
  refine .read fun s => ?_
  split
  · exact .pure _
  · exact .bind (total_setVariable _ _) fun _ => .bind (total_notifyReaders x) fun _ => .pure _

private theorem total_bindAt (x : VarId) (place : Location) (values : ValueSet) : Total (bindAt x place values) :=
  .bind (.modify _) fun _ => .bind (total_addTypes x values) fun _ => .pure _

theorem total_setMember (v : ValueId) (name : String) (values : ValueSet) (site : Site) :
    Total (setMember v name values site) := by
  have record : Total (memberRecord v name) := by
    refine .read fun s => ?_
    split
    · exact .bind (total_nameIn _ _) fun _ => .pure _
    · exact .bind (total_nameIn _ _) fun _ => .pure _
    · exact total_attributeOf v name
    · exact .pure _
  refine .bind record fun found => ?_
  cases found with
  | none => exact .pure _
  | some x => exact .read fun _ => total_bindAt x _ values

end Total

/-- No resource changes, every name keeps its record, and every assignable member its place. -/
structure Spares (s t : Session) : Prop where
  resources : t.resources = s.resources
  names : ∀ c name x, s.findName? c name = some x → t.findName? c name = some x
  places : ∀ v name place, s.memberPlace? v name = some place → t.memberPlace? v name = some place

namespace Spares

theorem refl (s : Session) : Spares s s := ⟨rfl, fun _ _ _ h => h, fun _ _ _ h => h⟩

theorem trans (h : Spares s t) (g : Spares t r) : Spares s r where
  resources := g.resources.trans h.resources
  names c name x hx := g.names c name x (h.names c name x hx)
  places v name place hp := g.places v name place (h.places v name place hp)

/-- A change of other parts of a session than values, scopes and resources. -/
theorem of_same (values : t.values = s.values) (scopes : t.scopes = s.scopes) (resources : t.resources = s.resources) :
    Spares s t where
  resources := resources
  names c name x hx := by rwa [findName?, scope, scopes]
  places v name place hp := by rwa [memberPlace?, form, value, values]

theorem newValue (value : Value) : Spares s { s with values := s.values.push value } where
  resources := rfl
  names _ _ _ hx := hx
  places v name place hp := by
    rw [memberPlace?, form_push, if_neg, ← memberPlace?, hp]
    intro new
    rw [memberPlace?, form_of_le (Nat.le_of_eq new.symm)] at hp
    cases hp

theorem setValue {value : Value} (same : ∀ u name, value.form.memberPlace? u name = (s.form v).memberPlace? u name) :
    Spares s (s.setValue v value) where
  resources := rfl
  names _ _ _ hx := hx
  places u name place hp := by
    rwa [memberPlace?, congr_form_setValue (fun form => form.memberPlace? u name) (same u name) u]

theorem nameIn (c : ScopeId) (name : String) : Spares s (after (nameIn c name) s) := by
  rcases after_nameIn c name s with ends | ⟨free, ends⟩ <;> rw [ends]
  · exact refl s
  · refine ⟨rfl, fun d other x hx => ?_, fun _ _ _ hp => hp⟩
    rw [findName?_withName, if_neg, hx]
    rintro ⟨⟨rfl, -⟩, rfl⟩
    rw [free] at hx
    cases hx

theorem attributeOf (v : ValueId) (name : String) : Spares s (after (attributeOf v name) s) := by
  rcases after_attributeOf v name s with ends | ⟨cls, attributes, form, -, ends⟩ <;> rw [ends]
  · exact refl s
  · have counted : Spares s { s with records := s.records.push { cap := s.options.limits.memberTypes } } :=
      of_same rfl rfl rfl
    refine counted.trans (setValue fun _ _ => ?_)
    exact (congrArg (fun form : Form => form.memberPlace? _ _) form).symm

end Spares

/-- The action changes no resource and keeps names and members in their places. -/
def Sparing {α : Type} (m : Analysis α) : Prop := ∀ s, Spares s (after m s)

namespace Sparing

variable {α β : Type}

theorem pure (a : α) : Sparing (Pure.pure a) := fun s => .refl s

theorem bind {m : Analysis α} {f : α → Analysis β} (hm : Sparing m) (hf : ∀ a, Sparing (f a)) : Sparing (m >>= f) :=
  related_bind .trans hm hf

theorem read {f : Session → Analysis β} (hf : ∀ s, Sparing (f s)) : Sparing (get >>= f) := fun s => hf s s

theorem composes : Composes @Sparing := ⟨pure, bind⟩

theorem newValue (name description : String) (type : MemberType) (form : Form) :
    Sparing (newValue name description type form) := fun _ => .newValue _

theorem keptOr (v : ValueId) (slot : Slot) {make : Analysis ValueId} (h : Sparing make) :
    Sparing (keptOr v slot make) := by
  refine read fun s => ?_
  split
  · exact pure _
  · exact bind h fun _ => bind (fun s => Spares.setValue fun _ _ => rfl) fun _ => pure _

theorem classOf (type : ObjectId) : Sparing (classOf type) := by
  have beside : ∀ cache s, Spares s (objectField.write cache s) := fun _ _ => .of_same rfl rfl rfl
  have make : Sparing (do
      count "cache_misses" 1
      return some (← (do
        let name := (← get).host.nameOf type
        Session.newValue name ("type " ++ name) .class_ (.builtinClass type)))) :=
    bind (fun _ => .of_same rfl rfl rfl) fun _ => bind (read fun _ => newValue _ _ _ _) fun _ => pure _
  exact related_recall .refl .trans beside make

theorem instancesOf (v : ValueId) : Sparing (instancesOf v) := by
  have builtin : Sparing (builtinInstance v) := by
    refine read fun s => ?_
    dsimp only
    split
    · exact bind (keptOr v _ (newValue _ _ _ _)) fun _ => pure _
    · exact pure _
  have user : Sparing (userInstance v) := by
    refine read fun s => ?_
    dsimp only
    split
    · exact bind (keptOr v _ (newValue _ _ _ _)) fun _ => pure _
    · exact pure _
  refine read fun s => ?_
  split
  · exact bind builtin fun _ => pure _
  · exact bind user fun _ => pure _
  · exact pure _

theorem memberRecord (v : ValueId) (name : String) : Sparing (memberRecord v name) := by
  refine read fun s => ?_
  split
  · exact bind (fun _ => .nameIn _ name) fun _ => pure _
  · exact bind (fun _ => .nameIn _ name) fun _ => pure _
  · exact fun _ => .attributeOf v name
  · exact pure _

end Sparing

section Binding

variable {x : VarId} {values : ValueSet}

private theorem after_bindAt (x : VarId) (at_ : Location) (values : ValueSet) (s : Session) :
    after (bindAt x at_ values) s = after (addTypes x values) (after (addAssignment x at_) s) := by
  have total : Total (addAssignment x at_) := .modify _
  rw [bindAt, after_seq total]
  exact after_ignore _ _

/-- An assignment changes records, and the queue when there is news. -/
theorem frame_bindAt (x : VarId) (at_ : Location) (values : ValueSet) (s : Session) :
    let t := after (bindAt x at_ values) s
    t = { s with records := t.records, queue := t.queue, metrics := t.metrics } := by
  rw [after_bindAt]
  let noted := after (addAssignment x at_) s
  rcases addTypes_cases x values noted with ⟨-, run⟩ | ⟨record, -, run⟩ <;> rw [after_of_ok run]
  · rfl
  · have told := notifies_notifyReaders x { noted with records := noted.records.setIfInBounds x.index record }
    rw [told.frame]
    rfl

private theorem members_le_addTypes {x : VarId} (there : x.index < s.records.size) (values : ValueSet) :
    values.members ≤ ((after (addTypes x values) s).types x).members := by
  cases grown : (s.var x).grow? values with
  | none =>
    have run : addTypes x values s = .ok false s := by
      simp only [addTypes, read_run, grown]
      rfl
    rw [after_of_ok run]
    exact Variable.members_le_of_full grown
  | some record =>
    rcases addTypes_cases x values s with ⟨-, run⟩ | ⟨other, same, run⟩
    · simp only [addTypes, read_run, grown] at run
      obtain ⟨_, _, -, rest⟩ := bind_eq_ok run
      obtain ⟨_, _, -, yields⟩ := bind_eq_ok rest
      cases yields
    · rw [grown] at same
      cases same
      have told := notifies_notifyReaders x { s with records := s.records.setIfInBounds x.index record }
      rw [after_of_ok run, told.types, Session.types, var_setIfInBounds, if_pos ⟨rfl, there⟩,
        (Variable.types_of_grow? grown).1]
      exact ValueSet.members_le_union_right _ _ _

/-- What is assigned to the record in a place is among the types in the place. -/
theorem held_bindAt (stored : s.recordAt? place = some x) (there : x.index < s.records.size) (at_ : Location)
    (values : ValueSet) : values.members ≤ (after (bindAt x at_ values) s).held place := by
  have kept : (after (bindAt x at_ values) s).recordAt? place = some x := by
    rw [frame_bindAt]
    cases place <;> exact stored
  rw [held_of_some kept, after_bindAt]
  exact members_le_addTypes (by simpa [addAssignment] using there) values

end Binding

theorem Sparing.setMember (v : ValueId) (name : String) (values : ValueSet) (site : Site) :
    Sparing (setMember v name values site) := by
  refine .bind (.memberRecord v name) fun found => ?_
  cases found with
  | none => exact .pure _
  | some x =>
    refine .read fun s t => ?_
    rw [frame_bindAt]
    exact .of_same rfl rfl rfl

/-- A place whose record stays there holds at least what it held. -/
theorem held_le_of_kept (grows : Grows s t) (kept : ∀ x, s.recordAt? place = some x → t.recordAt? place = some x) :
    s.held place ≤ t.held place := by
  cases hs : s.recordAt? place with
  | none =>
    rw [held_of_none hs]
    exact bot_le
  | some x =>
    rw [held_of_some hs, held_of_some (kept x hs)]
    exact grows.types x

theorem held_le (grows : Grows s t) (spares : Spares s t) (place : Place) : s.held place ≤ t.held place := by
  refine held_le_of_kept grows fun x stored => ?_
  cases place with
  | name c name => exact spares.names c name x stored
  | part v part => exact grows.parts v part x stored

/-- What an assignment to a place relies on: scopes and the records of names are there, or those of attributes. -/
def Receptive (s : Session) : Place → Prop
  | .name .. => Sane s ∧ Supplied s
  | .part .. => Attributed s

theorem Receptive.touches (h : s.Receptive place) (touches : Touches noLicence .all s t) : t.Receptive place := by
  cases place with
  | name c name =>
    obtain ⟨sane, supplied⟩ := h
    have sound : noLicence.Sound s := fun _ _ defines => False.elim defines
    have steps := steps_of_touches touches
    exact ⟨(sane.steps sound steps).1, (Supplies.of_steps sane sound steps).supplied supplied⟩
  | part v part =>
    have remembers : Remembers s t := .of_all (fun _ _ => .of_touch) touches
    exact remembers.attributes h

/-- A name gets a record in a scope that is there. -/
theorem nameIn_receptive {c : ScopeId} (there : c.index < s.scopes.size)
    (recorded : ∀ c name x, s.findName? c name = some x → x.index < s.records.size) (name : String) :
    ∃ x, nameIn c name s = .ok x (after (nameIn c name) s) ∧
      (after (nameIn c name) s).recordAt? (.name c name) = some x ∧
      x.index < (after (nameIn c name) s).records.size := by
  cases found : s.findName? c name with
  | some x =>
    have run := nameIn_of_some found
    rw [after_of_ok run]
    exact ⟨x, run, found, recorded c name x found⟩
  | none =>
    have run := nameIn_of_none found
    rw [after_of_ok run]
    refine ⟨_, run, ?_, by simp [withName]⟩
    rw [recordAt?, findName?_withName, if_pos ⟨⟨rfl, there⟩, rfl⟩]

/-- The attribute of an instance is there once it is asked for. -/
theorem attributeOf_instance (kind : (s.form v).kind = .userInstance) (name : String) :
    ∃ x, attributeOf v name s = .ok (some x) (after (attributeOf v name) s) ∧
      (after (attributeOf v name) s).recordAt? (.part v (.member name)) = some x := by
  cases form : s.form v <;> rw [form] at kind <;> cases kind
  next cls attributes =>
  have there : v.index < s.values.size := index_lt_of_form (by rw [form]; rintro ⟨⟩)
  cases named : attributes.find? name with
  | some x =>
    have run : attributeOf v name s = .ok (some x) s := by
      simp only [attributeOf, read_run, form, named]
      rfl
    have record : (s.form v).record? (.member name) = some x := by
      rw [form]
      exact named
    exact ⟨x, by rw [after_of_ok run, run], by rw [after_of_ok run]; exact record⟩
  | none =>
    let x : VarId := ⟨s.records.size⟩
    let grown : Session := { s with records := s.records.push { cap := s.options.limits.memberTypes } }
    let made := grown.setValue v { s.value v with form := .userInstance cls (attributes.insert name x) }
    have run : attributeOf v name s = .ok (some x) made := by
      simp only [attributeOf, read_run, form, named]
      rfl
    have record : (made.form v).record? (.member name) = some x := by
      have look : made.form v = .userInstance cls (attributes.insert name x) := by
        rw [form_setValue]
        exact if_pos ⟨rfl, there⟩
      rw [look]
      change (attributes.insert name x).find? name = some x
      rw [NameMap.find?_insert, if_pos rfl]
    exact ⟨x, by rw [after_of_ok run, run], by rw [after_of_ok run]; exact record⟩

/-- An assignable member has its record once it is asked for. -/
theorem memberRecord_run (stands : s.memberPlace? v name = some place) (receptive : s.Receptive place) :
    ∃ x, memberRecord v name s = .ok (some x) (after (memberRecord v name) s) ∧
      (after (memberRecord v name) s).recordAt? place = some x ∧
      x.index < (after (memberRecord v name) s).records.size := by
  have named : ∀ {c : ScopeId}, (s.form v).scope? = some c → Sane s ∧ Supplied s →
      memberRecord v name s = (do return some (← nameIn c name) : Analysis (Option VarId)) s →
      ∃ x, memberRecord v name s = .ok (some x) (after (memberRecord v name) s) ∧
        (after (memberRecord v name) s).recordAt? (.name c name) = some x ∧
        x.index < (after (memberRecord v name) s).records.size := by
    intro c owns receptive asks
    obtain ⟨x, run, stored, there⟩ :=
      nameIn_receptive (receptive.1.coherent.owned v c owns).1 receptive.2.recorded name
    have ends : memberRecord v name s = .ok (some x) (after (nameIn c name) s) := by
      rw [asks, bind_of_ok run]
      rfl
    rw [after_of_ok ends]
    exact ⟨x, ends, stored, there⟩
  rw [memberPlace?] at stands
  cases form : s.form v with
  | module p =>
    rw [form] at stands
    cases stands
    exact named (by rw [form]; rfl) receptive (by simp only [memberRecord, read_run, form])
  | userClass c =>
    rw [form] at stands
    cases stands
    exact named (by rw [form]; rfl) receptive (by simp only [memberRecord, read_run, form])
  | userInstance cls attributes =>
    rw [form] at stands
    cases stands
    have asks : memberRecord v name s = attributeOf v name s := by simp only [memberRecord, read_run, form]
    obtain ⟨x, run, stored⟩ := attributeOf_instance (by rw [form]; rfl) name
    have ends := asks.trans run
    have roams : Roams noLicence .all (attributeOf v name) _ := .attributeOf trivial name
    rw [after_of_ok ends]
    exact ⟨x, ends, stored, (Remembers.of_roams roams s).attributes receptive v name x stored⟩
  | _ =>
    rw [form] at stands
    cases stands

/-- What is assigned to a member is among its types. -/
theorem held_setMember (stands : s.memberPlace? v name = some place) (receptive : s.Receptive place)
    (values : ValueSet) (site : Site) : values.members ≤ (after (setMember v name values site) s).held place := by
  obtain ⟨x, run, stored, there⟩ := memberRecord_run stands receptive
  let asked := after (memberRecord v name) s
  have ends : after (setMember v name values site) s = after (bindAt x (asked.locationAt site) values) asked := by
    rw [setMember, after_bind_of_ok run]
    rfl
  rw [ends]
  exact held_bindAt stored there _ values

end Session

end Typeflow
