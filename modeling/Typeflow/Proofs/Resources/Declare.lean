import Typeflow.Proofs.Identity.Repeat
import Typeflow.Proofs.Members
import Typeflow.Proofs.Resources

/-! What the loader of components does: the module that calls it depends on the resource, and each value that
it is given has a member for each object that the resource declares, with the instance of its type. Nothing that
evaluations do later takes any of this away from instances. -/
namespace Typeflow.Session

variable {s t q : Session}

section Total

theorem total_recall {κ α : Type} [BEq κ] {field : CacheField Session κ α} {key : κ}
    {make : Analysis (Option α)} (h : Total make) : Total (field.recall key make) := by
  intro s
  cases hk : (field.read s).find? key with
  | some found =>
    have run : field.recall key make s = .ok found s := CacheField.recall_of_find? hk make
    exact ⟨found, by rw [after_of_ok run, run]⟩
  | none =>
    obtain ⟨found, made⟩ := h (field.write ((field.read s).reserve key) s)
    have run : field.recall key make s = _ := CacheField.recall_of_make hk made
    exact ⟨found, by rw [after_of_ok run, run]⟩

theorem total_classOf (type : ObjectId) : Total (classOf type) := by
  have make : Total (do
      let name := (← get).host.nameOf type
      newValue name ("type " ++ name) .class_ (.builtinClass type)) := .read fun _ => .modifyGet _
  unfold classOf objectValue
  apply total_recall
  exact .bind (.modify _) fun _ => .bind make fun _ => .pure _

theorem total_classOf? (type : Option ObjectId) : Total (classOf? type) := by
  cases type with
  | none => exact .pure none
  | some type => exact total_classOf type

theorem total_keptOr (v : ValueId) (slot : Slot) {make : Analysis ValueId} (h : Total make) :
    Total (keptOr v slot make) := by
  refine .read fun s => ?_
  split
  · exact .pure _
  · exact .bind h fun _ => .bind (.modify _) fun _ => .pure _

theorem total_instancesOf (v : ValueId) : Total (instancesOf v) := by
  have kept : ∀ name description form,
      Total (keptOr v .instance_ (newValue name description .instance_ form)) :=
    fun _ _ _ => total_keptOr v .instance_ (.modifyGet _)
  have builtin : Total (builtinInstance v) := by
    refine .read fun s => ?_
    dsimp only
    split
    · exact .bind (kept _ _ _) fun _ => .pure _
    · exact .pure _
  have user : Total (userInstance v) := by
    refine .read fun s => ?_
    dsimp only
    split
    · exact .bind (kept _ _ _) fun _ => .pure _
    · exact .pure _
  refine .read fun s => ?_
  split
  · exact .bind builtin fun _ => .pure _
  · exact .bind user fun _ => .pure _
  · exact .pure _

def giveInstance (name : String) (cls : ValueId) (site : Site) (v : ValueId) : Analysis Unit := do
  setMember v name (← instancesOf cls) site

private theorem total_giveInstance (name : String) (cls : ValueId) (site : Site) (v : ValueId) :
    Total (giveInstance name cls site v) :=
  .bind (total_instancesOf cls) fun _ => total_setMember v name _ site

private theorem setDeclared_eq (self : ValueSet) (name : String) (type : Option ObjectId) (site : Site) :
    setDeclared self name type site = (do
      match ← classOf? type with
      | none => pure ()
      | some cls => self.items.forM (giveInstance name cls site)) := rfl

theorem total_setDeclared (self : ValueSet) (name : String) (type : Option ObjectId) (site : Site) :
    Total (setDeclared self name type site) := by
  rw [setDeclared_eq]
  refine .bind (total_classOf? type) fun found => ?_
  cases found with
  | none => exact .pure _
  | some cls => exact .forM (total_giveInstance name cls site) _

end Total

/-- What is known about the host stays, and what was found about values. -/
structure Stays (s t : Session) : Prop where
  remembers : Remembers s t
  grows : Grows s t
  endures : Endures s t

namespace Stays

theorem trans (h : Stays s t) (g : Stays t q) : Stays s q :=
  ⟨h.remembers.trans g.remembers, h.grows.trans g.grows, h.endures.trans g.endures⟩

theorem of_touches {L : Licence} (touches : Touches L .all s t) : Stays s t :=
  ⟨.of_all (fun _ _ => .of_touch) touches, .of_steps (steps_of_touches touches), .of_touches touches⟩

theorem held (h : Stays s t) (v : ValueId) (part : Part) : s.held (.part v part) ≤ t.held (.part v part) :=
  held_le_of_kept h.grows (h.grows.parts v part)

end Stays

/-- The place holds the instance of the class. -/
def InstanceIn (s : Session) (place : Place) (cls : ValueId) : Prop :=
  ∃ i, (s.value cls).kept? .instance_ = some i ∧ (ValueSet.single (some i)).members ≤ s.held place

/-- The type is known by a value, and if this is a class, the place holds its instance. -/
def TypeIn (s : Session) (place : Place) (type : ObjectId) : Prop :=
  ∃ cls, s.objectValues.find? type = some (some cls) ∧
    ((s.form cls).kind = .builtinClass → s.InstanceIn place cls)

theorem InstanceIn.mono {place : Place} {cls : ValueId} (h : s.InstanceIn place cls) (remembers : Remembers s t)
    (more : s.held place ≤ t.held place) : t.InstanceIn place cls := by
  obtain ⟨i, kept, holds⟩ := h
  exact ⟨i, remembers.instances cls i kept, le_trans holds more⟩

theorem TypeIn.mono {place : Place} {type : ObjectId} (h : s.TypeIn place type) (rest : AtRest s)
    (remembers : Remembers s t) (more : s.held place ≤ t.held place) : t.TypeIn place type := by
  obtain ⟨cls, known, holds⟩ := h
  refine ⟨cls, remembers.objects.stays type cls known, fun kind => ?_⟩
  rw [remembers.kinds cls (rest.hosted type cls known).1] at kind
  exact (holds kind).mono remembers more

/-- The attribute of the value holds the instance of the class. -/
def HoldsInstance (s : Session) (v : ValueId) (name : String) (cls : ValueId) : Prop :=
  ∃ i, (s.value cls).kept? .instance_ = some i ∧
    (ValueSet.single (some i)).members ≤ s.held (.part v (.member name))

/-- The type is known by a value, and if this is a class, the attribute holds its instance. -/
def Bears (s : Session) (v : ValueId) (name : String) (type : ObjectId) : Prop :=
  ∃ cls, s.objectValues.find? type = some (some cls) ∧
    ((s.form cls).kind = .builtinClass → s.HoldsInstance v name cls)

section Bears

variable {v cls : ValueId} {name : String} {type : ObjectId}

theorem Bears.stays (h : s.Bears v name type) (rest : AtRest s) (stays : Stays s t) : t.Bears v name type := by
  have there : s.TypeIn (.part v (.member name)) type := h
  exact there.mono rest stays.remembers (stays.held v _)

/-- A session at rest finds the value of a type. -/
theorem classOf_known (rest : AtRest s) (known : s.KnowsType type) :
    ∃ cls, classOf type s = .ok (some cls) (after (classOf type) s) ∧
      (after (classOf type) s).objectValues.find? type = some (some cls) ∧
      Remembers s (after (classOf type) s) := by
  obtain ⟨found, run⟩ := total_classOf type s
  have remembers : ∀ s : Session, s.KnowsType type → Remembers s (after (classOf type) s) := fun s known =>
    .of_proceeds (L := noLicence) (Roams.of_lookups (Recalls.classOf (Realm.closed_all s) known))
  obtain ⟨-, -, kept⟩ := Repeats.objectValue remembers s rest known found _ run
  cases found with
  | none => exact absurd kept ((rest.remembers (remembers s known)).objects type)
  | some cls => exact ⟨cls, run, kept, remembers s known⟩

private theorem instancesOf_builtin (form : s.form cls = .builtinClass type) :
    ∃ i, instancesOf cls s = .ok (.single (some i)) (after (instancesOf cls) s) ∧
      ((after (instancesOf cls) s).value cls).kept? .instance_ = some i := by
  obtain ⟨values, run⟩ := total_instancesOf cls s
  have asks : instancesOf cls s = (do return .single (← builtinInstance cls) : Analysis ValueSet) s := by
    simp only [instancesOf, read_run, form]
  rw [asks] at run
  obtain ⟨found, t, made, yields⟩ := bind_eq_ok run
  obtain ⟨i, rfl, kept⟩ := kept_of_builtinInstance form made
  cases yields
  exact ⟨i, asks.trans run, kept⟩

end Bears

namespace Sparing

theorem giveInstance (name : String) (cls : ValueId) (site : Site) (v : ValueId) :
    Sparing (giveInstance name cls site v) :=
  .bind (.instancesOf cls) fun _ => .setMember v name _ site

theorem setDeclared (self : ValueSet) (name : String) (type : Option ObjectId) (site : Site) :
    Sparing (setDeclared self name type site) := by
  have found : Sparing (classOf? type) := by
    cases type with
    | none => exact .pure _
    | some type => exact .classOf type
  rw [setDeclared_eq]
  refine .bind found fun cls => ?_
  cases cls with
  | none => exact .pure _
  | some cls => exact composes.forM (giveInstance name cls site) _

end Sparing

/-- Nothing is lost that was known or held, no resource changes, and names and members keep their places. -/
structure Accrues (s t : Session) : Prop extends Spares s t where
  touches : Touches noLicence .all s t

namespace Accrues

theorem refl (s : Session) : Accrues s s := ⟨.refl s, .refl⟩

theorem trans (h : Accrues s t) (g : Accrues t q) : Accrues s q :=
  ⟨h.toSpares.trans g.toSpares, h.touches.trans g.touches⟩

theorem stays (h : Accrues s t) : Stays s t := .of_touches h.touches

theorem held (h : Accrues s t) (place : Place) : s.held place ≤ t.held place :=
  held_le h.stays.grows h.toSpares place

theorem rest (h : Accrues s t) (rest : AtRest s) : AtRest t := rest.remembers h.stays.remembers

theorem of_roams {α : Type} {m : Analysis α} {Q : α → Prop} (spares : Sparing m) (h : Roams noLicence .all m Q)
    (s : Session) : Accrues s (after m s) := ⟨spares s, (h s (Realm.closed_all s)).1⟩

theorem classOf {type : ObjectId} (known : s.KnowsType type) : Accrues s (after (classOf type) s) :=
  ⟨Sparing.classOf type s, (Roams.of_lookups (Recalls.classOf (Realm.closed_all s) known)).1⟩

theorem instancesOf (cls : ValueId) (s : Session) : Accrues s (after (instancesOf cls) s) :=
  of_roams (.instancesOf cls) (.instancesOf trivial) s

theorem setMember (v : ValueId) (name : String) (values : ValueSet) (site : Site) (s : Session) :
    Accrues s (after (setMember v name values site) s) :=
  of_roams (.setMember v name values site) (.setMember trivial name (fun _ _ => trivial) site) s

theorem giveInstance (name : String) (cls : ValueId) (site : Site) (v : ValueId) (s : Session) :
    Accrues s (after (giveInstance name cls site v) s) :=
  of_roams (Q := fun _ => True) (.giveInstance name cls site v)
    (.bind (Roams.instancesOf trivial) fun _ _ => Roams.setMember trivial name (fun _ _ => trivial) site) s

private theorem giveInstances (name : String) (cls : ValueId) (site : Site) (items : List ValueId) (s : Session) :
    Accrues s (after (items.forM (Session.giveInstance name cls site)) s) :=
  after_forM (total_giveInstance name cls site) (fun v _ accrues => accrues.trans (giveInstance name cls site v _))
    items (refl s)

theorem setDeclared (self : ValueSet) (name : String) {type : Option ObjectId}
    (known : ∀ t, type = some t → s.KnowsType t) (site : Site) :
    Accrues s (after (setDeclared self name type site) s) :=
  ⟨Sparing.setDeclared self name type site s,
    (Roams.setDeclared (Realm.closed_all s) (fun _ _ => trivial) name known site).1⟩

theorem setEachDeclared (self : ValueSet) {pairs : List (String × Option ObjectId)}
    (known : ∀ name t, (name, some t) ∈ pairs → s.KnowsType t) (site : Site) :
    Accrues s (after (pairs.forM fun pair => Session.setDeclared self pair.1 pair.2 site) s) :=
  have all : Realm.all.set self := fun _ _ => trivial
  ⟨Sparing.composes.forM (fun pair => Sparing.setDeclared self pair.1 pair.2 site) pairs s,
    (Roams.setEachDeclared (Realm.closed_all s) all known site).1⟩

private theorem instanceIn (h : Accrues s t) {place : Place} {cls : ValueId} (before : s.InstanceIn place cls) :
    t.InstanceIn place cls := before.mono h.stays.remembers (h.held place)

private theorem typeIn (h : Accrues s t) {place : Place} {type : ObjectId} (rest : AtRest s) (before : s.TypeIn place type) :
    t.TypeIn place type := before.mono rest h.stays.remembers (h.held place)

end Accrues

section Declared

variable {v cls : ValueId} {name : String} {place : Place} {type : ObjectId} {self : ValueSet}

private theorem instanceIn_giveInstance (stands : s.memberPlace? v name = some place) (receptive : s.Receptive place)
    (class_ : (s.form cls).kind = .builtinClass) (site : Site) :
    (after (giveInstance name cls site v) s).InstanceIn place cls := by
  obtain ⟨type, form⟩ : ∃ type, s.form cls = .builtinClass type := by
    cases form : s.form cls <;> rw [form] at class_ <;> cases class_
    exact ⟨_, rfl⟩
  obtain ⟨i, run, kept⟩ := instancesOf_builtin form
  let known := after (instancesOf cls) s
  have found : Accrues s known := .instancesOf cls s
  have sets : after (giveInstance name cls site v) s = after (setMember v name (.single (some i)) site) known :=
    after_bind_of_ok run
  rw [sets]
  refine ⟨i, (Accrues.setMember v name _ site known).stays.remembers.instances cls i kept, ?_⟩
  exact held_setMember (found.places v name place stands) (receptive.touches found.touches) _ site

/-- Each value of a set is given the instance of a class. -/
theorem instanceIn_giveInstances {items : List ValueId} (mem : v ∈ items)
    (stands : s.memberPlace? v name = some place) (receptive : s.Receptive place)
    (class_ : (s.form cls).kind = .builtinClass) (site : Site) :
    (after (items.forM (giveInstance name cls site)) s).InstanceIn place cls := by
  induction items generalizing s with
  | nil => cases mem
  | cons w rest ih =>
    let next := after (giveInstance name cls site w) s
    have first : Accrues s next := .giveInstance name cls site w s
    rw [after_forM_cons (total_giveInstance name cls site)]
    by_cases same : v = w
    · subst same
      exact (Accrues.giveInstances name cls site rest next).instanceIn
        (instanceIn_giveInstance stands receptive class_ site)
    · have there : cls.index < s.values.size := index_lt_of_form (by rintro same; rw [same] at class_; cases class_)
      exact ih (List.mem_of_ne_of_mem same mem) (first.places v name place stands) (receptive.touches first.touches)
        ((first.stays.remembers.kinds cls there).trans class_)

/-- Each value of a set gets an object that is declared. -/
theorem typeIn_setDeclared (rest : AtRest s) (mem : v ∈ self.items) (stands : s.memberPlace? v name = some place)
    (receptive : s.Receptive place) (typed : s.KnowsType type) (site : Site) :
    (after (setDeclared self name (some type) site) s).TypeIn place type := by
  obtain ⟨cls, run, known, -⟩ := classOf_known rest typed
  let found := after (classOf type) s
  have first : Accrues s found := .classOf typed
  have sets : after (setDeclared self name (some type) site) s =
      after (self.items.forM (giveInstance name cls site)) found := by
    rw [setDeclared_eq]
    exact after_bind_of_ok run
  have remembers := (Accrues.giveInstances name cls site self.items found).stays.remembers
  rw [sets]
  refine ⟨cls, remembers.objects.stays type cls known, fun class_ => ?_⟩
  rw [remembers.kinds cls ((first.rest rest).hosted type cls known).1] at class_
  exact instanceIn_giveInstances mem (first.places v name place stands) (receptive.touches first.touches) class_ site

/-- Each value of a set gets all objects that are declared. -/
theorem typeIn_setEachDeclared (rest : AtRest s) (mem : v ∈ self.items)
    (stands : s.memberPlace? v name = some place) (receptive : s.Receptive place)
    {pairs : List (String × Option ObjectId)} (typed : ∀ name t, (name, some t) ∈ pairs → s.KnowsType t)
    (declared : (name, some type) ∈ pairs) (site : Site) :
    (after (pairs.forM fun pair => setDeclared self pair.1 pair.2 site) s).TypeIn place type := by
  have total : ∀ pair : String × Option ObjectId, Total (setDeclared self pair.1 pair.2 site) :=
    fun pair => total_setDeclared self pair.1 pair.2 site
  induction pairs generalizing s with
  | nil => cases declared
  | cons pair more ih =>
    let next := after (setDeclared self pair.1 pair.2 site) s
    have first : Accrues s next :=
      .setDeclared self pair.1 (fun t same => typed pair.1 t (List.mem_cons.2 (.inl (by rw [← same])))) site
    have typedNext : ∀ name t, (name, some t) ∈ more → next.KnowsType t := fun name t mem =>
      first.stays.endures.knowsType (typed name t (List.mem_cons_of_mem _ mem))
    rw [after_forM_cons total]
    rcases List.mem_cons.1 declared with rfl | later
    · exact (Accrues.setEachDeclared self typedNext site).typeIn (first.rest rest)
        (typeIn_setDeclared rest mem stands receptive (typed name type List.mem_cons_self) site)
    · exact ih (first.rest rest) (first.places v name place stands) (receptive.touches first.touches) typedNext later

end Declared

end Typeflow.Session
