import Typeflow.Proofs.Lookup.Frame

/-! Looking a member up makes values, names and attributes and loads modules, and leaves alone how values refer
to one another and which classes are marked. -/
namespace Typeflow.Session

/-- The action leaves alone what lookups leave alone, whether it succeeds or fails. -/
def Looks {α : Type} (m : Analysis α) : Prop := ∀ s, Peeks s (after m s)

namespace Looks

variable {α β : Type} {m : Analysis α} {f : α → Analysis β}

theorem pure (a : α) : Looks (Pure.pure a) := fun s => .refl s

theorem throw (e : Fault) : Looks (MonadExcept.throw e : Analysis α) := fun s => .refl s

theorem bind (hm : Looks m) (hf : ∀ a, Looks (f a)) : Looks (m >>= f) := related_bind .trans hm hf

theorem read {f : Session → Analysis β} (hf : ∀ s, Looks (f s)) : Looks (get >>= f) := fun s => hf s s

theorem ite {c : Prop} [Decidable c] {m n : Analysis α} (hm : Looks m) (hn : Looks n) :
    Looks (if c then m else n) := by
  split
  · exact hm
  · exact hn

theorem composes : Composes @Looks := ⟨pure, bind⟩

theorem forM {f : α → Analysis Unit} (h : ∀ a, Looks (f a)) (items : List α) : Looks (items.forM f) :=
  composes.forM h items

theorem mapM (h : ∀ a, Looks (f a)) (items : List α) : Looks (items.mapM f) := composes.mapM h items

theorem joinM {f : α → Analysis ValueSet} (h : ∀ a, Looks (f a)) (items : List α) :
    Looks (ValueSet.joinM items f) := composes.joinM h items

/-- A memo table is a part of the session beside values and records. -/
theorem recalled {κ : Type} [BEq κ] {field : CacheField Session κ ValueId} {key : κ} {make : Analysis Found}
    (beside : ∀ cache s, Peeks s (field.write cache s)) (h : Looks make) : Looks (field.recall key make) :=
  related_recall .refl .trans beside h

section Universe

theorem count (name : String) (delta : Nat) : Looks (Session.count name delta) :=
  fun _ => .of_same rfl rfl rfl

theorem writeLog (category : LogCategory) (message : String) : Looks (Session.writeLog category message) :=
  fun _ => .of_same rfl rfl rfl

theorem newValue (name description : String) (type : MemberType) {form : Form} (free : form.scope? = none) :
    Looks (Session.newValue name description type form) := fun _ => .push free rfl

theorem keptOr {v : ValueId} {slot : Slot} {make : Analysis ValueId} (h : Looks make)
    (own : slot ≠ .instance_) : Looks (Session.keptOr v slot make) := by
  refine read fun s => ?_
  split
  · exact pure _
  · refine bind h fun _ => bind (fun t => .setValue rfl rfl ?_) fun _ => pure _
    rw [Value.kept?_keep, if_neg own.symm]

theorem keptInstance {cls : ValueId} {name description : String} {form : Form} {s : Session}
    (free : form.scope? = none) (there : cls.index < s.values.size)
    (of : form = .builtinInstance cls ∨ (s.form cls).kind = .userClass) :
    Peeks s (after (Session.keptOr cls .instance_ (Session.newValue name description .instance_ form)) s) := by
  cases hk : s.exemplar? cls with
  | some made =>
    rw [after_of_ok (keptOr_run_of_some hk _)]
    exact .refl s
  | none =>
    rw [after_of_ok (keptOr_run_of_none hk there _ _ _ _)]
    exact .withInstance free rfl there of hk

theorem objectValue {object : ObjectId} {make : Analysis ValueId} (h : Looks make) :
    Looks (Session.objectValue object make) :=
  recalled (fun _ _ => .of_same rfl rfl rfl) (bind (count _ _) fun _ => bind h fun _ => pure _)

theorem classOf (type : ObjectId) : Looks (Session.classOf type) :=
  objectValue (read fun _ => newValue _ _ _ rfl)

theorem classOf? (type : Option ObjectId) : Looks (Session.classOf? type) := by
  cases type with
  | none => exact pure _
  | some type => exact classOf type

theorem knownType (id : TypeId) : Looks (Session.knownType id) := read fun _ => classOf? _

theorem moduleOfObject (object : ObjectId) : Looks (Session.moduleOfObject object) :=
  objectValue (read fun _ => newValue _ _ _ rfl)

theorem classNameOr (cls : Found) (word : String) : Looks (Session.classNameOr cls word) := by
  cases cls with
  | none => exact pure _
  | some cls => exact read fun _ => pure _

theorem builtinInstance (cls : ValueId) : Looks (Session.builtinInstance cls) := by
  intro s
  simp only [Session.builtinInstance, after_read]
  split
  · next type hf =>
    rw [after_map]
    have there : cls.index < s.values.size := index_lt_of_form (by rw [Session.form, hf]; rintro ⟨⟩)
    exact keptInstance rfl there (.inl rfl)
  · exact .refl s

theorem userInstance (cls : ValueId) : Looks (Session.userInstance cls) := by
  intro s
  simp only [Session.userInstance, after_read]
  split
  · next c hf =>
    rw [after_map]
    have there : cls.index < s.values.size := index_lt_of_form (by rw [Session.form, hf]; rintro ⟨⟩)
    exact keptInstance rfl there (.inr (by rw [Session.form, hf]; rfl))
  · exact .refl s

theorem instancesOf (v : ValueId) : Looks (Session.instancesOf v) := by
  refine read fun s => ?_
  split
  · exact bind (builtinInstance _) fun _ => pure _
  · exact bind (userInstance _) fun _ => pure _
  · exact pure _

theorem instancesOfType (type : Option ObjectId) : Looks (Session.instancesOfType type) := by
  refine bind (classOf? type) fun found => ?_
  cases found with
  | none => exact pure _
  | some cls => exact instancesOf cls

theorem constantValue (value : Constant) : Looks (Session.constantValue value) :=
  recalled (fun _ _ => .of_same rfl rfl rfl) (bind (count _ _) fun _ => read fun _ => bind (knownType _) fun _ =>
    bind (classNameOr _ _) fun _ => bind (newValue _ _ _ rfl) fun _ => pure _)

theorem aggregate (members : List Found) : Looks (Session.aggregate members) := by
  unfold Session.aggregate
  split
  · exact pure _
  · exact pure _
  · exact recalled (fun _ _ => .of_same rfl rfl rfl) (read fun _ => bind (newValue _ _ _ rfl) fun _ => pure _)

theorem boundMethod (function self : ValueId) : Looks (Session.boundMethod function self) :=
  recalled (fun _ _ => .of_same rfl rfl rfl) (read fun _ => bind (newValue _ _ _ rfl) fun _ => pure _)

theorem unclassifiedValue (object : ObjectId) : Looks (Session.unclassifiedValue object) := by
  refine read fun s => bind (classOf? _) fun declared => ?_
  cases declared with
  | some cls => exact builtinInstance cls
  | none =>
    refine bind (count _ _) fun _ => read fun _ => read fun _ => ite (throw _) (bind (writeLog _ _) fun _ => ?_)
    refine bind (knownType _) fun found => ?_
    cases found with
    | some cls => exact builtinInstance cls
    | none => exact pure _

theorem simpleValue (object : ObjectId) (kind : HostKind) : Looks (Session.simpleValue object kind) := by
  cases kind with
  | type => exact classOf object
  | function | methodDescriptor => exact objectValue (read fun _ => newValue _ _ _ rfl)
  | property | memberContainer => exact objectValue (newValue _ _ _ rfl)
  | module => exact moduleOfObject object
  | constant =>
    exact objectValue (read fun _ => bind (classOf? _) fun _ => bind (classNameOr _ _) fun _ =>
      newValue _ _ _ rfl)
  | primitive =>
    refine read fun _ => ?_
    split
    · exact constantValue _
    · exact pure _
  | multipleMembers | unknown => exact unclassifiedValue object

theorem valueOfWithin (depth : Nat) (object : Option ObjectId) : Looks (Session.valueOfWithin depth object) := by
  induction depth generalizing object with
  | zero =>
    cases object with
    | none => exact constantValue _
    | some o => exact throw _
  | succ depth ih =>
    cases object with
    | none => exact constantValue _
    | some o =>
      refine read fun s => ?_
      dsimp only
      split
      · exact bind (mapM ih _) fun _ => aggregate _
      · exact simpleValue _ _

theorem valueOf (object : Option ObjectId) : Looks (Session.valueOf object) :=
  read fun _ => valueOfWithin _ _

end Universe

section Modules

theorem install (r : Registration) : Looks (Session.install r) := by
  refine read fun s => ?_
  split
  · exact writeLog _ _
  · exact bind (Peeks.specializeModule _ _ _) fun _ => bind (count _ _) fun _ => read fun _ => writeLog _ _

theorem installFor (name : String) : Looks (Session.installFor name) := read fun _ => forM install _

theorem lookupModule (name : String) : Looks (Session.lookupModule name) := by
  refine read fun s => ?_
  split
  · exact pure _
  · refine read fun s => ite (pure _) (bind (m := importObject name) (fun _ => .of_same rfl rfl rfl) fun object => ?_)
    cases object with
    | none => exact bind (m := updateRef _ _) (fun _ => .of_same rfl rfl rfl) fun _ => pure _
    | some object =>
      exact bind (moduleOfObject object) fun m => bind (m := updateRef _ _) (fun _ => .of_same rfl rfl rfl) fun _ =>
        bind (writeLog _ _) fun _ => bind (installFor name) fun _ => pure _

theorem moduleNamed (name : String) : Looks (Session.moduleNamed name) := by
  refine bind (lookupModule name) fun found => ?_
  cases found with
  | none => exact pure _
  | some r => exact read fun _ => pure _

theorem childWithin (name : String) (depth : Nat) (m : ValueId) : Looks (Session.childWithin name depth m) := by
  induction depth generalizing m with
  | zero => exact throw _
  | succ depth ih =>
    refine read fun s => ?_
    dsimp only
    split
    · exact bind (mapM ih _) fun _ => aggregate _
    · exact moduleNamed _
    · exact moduleNamed _
    · exact pure _

theorem childModule (m : ValueId) (name : String) : Looks (Session.childModule m name) :=
  read fun _ => childWithin _ _ _

end Modules

section Members

theorem newWrapper (wrapped : Found) (qualified : String) (source : WrapperSource) :
    Looks (Session.newWrapper wrapped qualified source) := by
  refine read fun s => ?_
  cases wrapped with
  | none => exact newValue _ _ _ rfl
  | some v => exact newValue _ _ _ rfl

theorem wrapAll (generic : ValueSet) (name : String) (source : WrapperSource) :
    Looks (do Session.newWrapper (← Session.aggregate (generic.items.map some)) name source) :=
  bind (aggregate _) fun _ => newWrapper _ _ _

theorem keptSet {v : ValueId} {slot : Slot} {make : Analysis ValueId} (h : Looks make)
    (own : slot ≠ .instance_) :
    Looks (do return ValueSet.single (← Session.keptOr v slot make)) := bind (keptOr h own) fun _ => pure _

theorem memberWrapper (v : ValueId) (name qualified : String) (wrapped : Found) (table : ValueId) :
    Looks (Session.memberWrapper v name qualified wrapped table) := keptSet (newWrapper _ _ _) nofun

theorem typeMember (cls : ValueId) (type : ObjectId) (name : String) :
    Looks (Session.typeMember cls type name) := by
  refine read fun s => ?_
  split
  · exact pure _
  · refine bind (valueOf _) fun found => read fun t => ?_
    dsimp only
    split
    · exact pure _
    · exact ite (memberWrapper _ _ _ _ _) (pure _)

theorem builtinClassMember (cls : ValueId) (type : ObjectId) (name : String) :
    Looks (Session.builtinClassMember cls type name) := by
  refine read fun s => ite (keptSet ?_ nofun) (typeMember _ _ _)
  exact bind (typeMember _ _ _) fun _ => bind (aggregate _) fun _ => newWrapper _ _ _

theorem moduleMember (m : ValueId) (object : ObjectId) (name : String) :
    Looks (Session.moduleMember m object name) := by
  refine read fun s => ?_
  split
  · exact pure _
  · exact bind (valueOf _) fun _ => read fun _ => ite (memberWrapper _ _ _ _ _) (pure _)

theorem throughProperty (v : ValueId) : Looks (Session.throughProperty v) := by
  refine read fun s => ?_
  split
  · exact read fun _ => instancesOfType _
  · exact pure _

theorem throughInstance (self v : ValueId) : Looks (Session.throughInstance self v) :=
  read fun _ => ite (bind (boundMethod _ _) fun _ => pure _) (throughProperty v)

theorem throughSuper (instances : ValueSet) (v : ValueId) : Looks (Session.throughSuper instances v) :=
  read fun _ => ite (pure _) (joinM (fun _ => bind (boundMethod _ _) fun _ => pure _) _)

theorem nameIn (c : ScopeId) (name : String) : Looks (Session.nameIn c name) :=
  Peeks.nameIn c name

theorem readAt (x : VarId) (site : Site) : Looks (Session.readAt x site) :=
  bind (Peeks.addReader x site.unit) fun _ => read fun _ => pure _

theorem attributeOf (v : ValueId) (name : String) : Looks (Session.attributeOf v name) :=
  Peeks.attributeOf v name

theorem exemplarOf (type : Found) : Looks (Session.exemplarOf type) := by
  cases type with
  | none => exact pure _
  | some cls => exact builtinInstance cls

theorem projectMember (m : ValueId) (p : ProjectModule) (name : String) (site : Site) :
    Looks (Session.projectMember m p name site) :=
  bind (nameIn _ _) fun _ => bind (Peeks.addReader _ _) fun _ => read fun _ =>
    ite (pure _) (bind (childModule _ _) fun _ => pure _)

end Members

section Rules

/-- A class that is not marked is marked while its bases are searched, and the mark goes away in any case. -/
theorem whileResolving {cls : ValueId} {search : Analysis α} (h : Looks search) {s : Session}
    (idle : s.isResolving cls = false) : Peeks s (after (Session.whileResolving cls search) s) := by
  rw [after_whileResolving]
  have inner := h (after (setResolving cls true) s)
  refine ⟨((links_setResolving cls true s).trans inner.toLinks).trans (links_setResolving cls false _), fun v => ?_⟩
  rw [marked_setResolving]
  split
  · next own => rw [own.1, ← isResolving_eq, idle]
  · next other =>
    by_cases same : v = cls
    · have unmarked : ((after search (after (setResolving cls true) s)).form cls).marked = false :=
        marked_of_kind fun kind => other ⟨same, kind⟩
      rw [same, unmarked, ← isResolving_eq, idle]
    · rw [inner.mark, marked_setResolving, if_neg fun own => same own.1]

variable {ask : Ask} {site : Site} (hask : ∀ v name, Looks (ask v (.member name) site))
include hask

theorem exemplarMember (type : Found) (name : String) :
    Looks (Session.exemplarMember ask type name site) := by
  refine bind (exemplarOf type) fun found => ?_
  cases found with
  | none => exact pure _
  | some v => exact hask v name

theorem sequenceMember (v : ValueId) (type : Found) (name : String) :
    Looks (Session.sequenceMember ask v type name site) := by
  refine bind (exemplarMember hask type name) fun generic => ?_
  split
  · exact read fun _ => ite (keptSet (wrapAll _ _ _) nofun) (pure _)
  · exact pure _

theorem iteratorMember (v : ValueId) (type : Found) (name : String) :
    Looks (Session.iteratorMember ask v type name site) :=
  bind (exemplarMember hask type name) fun _ => read fun _ => ite (pure _) (keptSet (wrapAll _ _ _) nofun)

theorem userClassMember (cls : ValueId) (c : UserClass) (name : String) :
    Looks (Session.userClassMember ask cls c name site) := by
  refine bind (nameIn _ _) fun _ => bind (readAt _ site) fun _ =>
    ite (pure _) (bind (readAt _ site) fun bases s => ?_)
  rw [after_read]
  split
  · exact .refl s
  · next idle => exact whileResolving (joinM (fun base => hask base name) _) (Bool.eq_false_iff.2 idle)

theorem userInstanceMember (v cls : ValueId) (name : String) :
    Looks (Session.userInstanceMember ask v cls name site) := by
  have rest : ∀ own : ValueSet, Looks (do
      let fromClass ← ask cls (.member name) site
      return own.join (← ValueSet.joinM fromClass.items (Session.throughInstance v))) := fun own =>
    bind (hask cls name) fun _ => bind (joinM (throughInstance v) _) fun _ => pure _
  refine bind (attributeOf v name) fun found => ?_
  cases found with
  | some x => exact bind (readAt x site) rest
  | none => exact bind (pure _) rest

theorem superMember (cls : ValueId) (instances : ValueSet) (name : String) :
    Looks (Session.superMember ask cls instances name site) := by
  refine read fun s => ?_
  split
  · exact bind (readAt _ site) fun _ => joinM (fun base => bind (hask base name) fun _ =>
      joinM (throughSuper instances) _) _
  · exact pure _

theorem memberOf (v : ValueId) (name : String) : Looks (Session.memberOf ask v name site) := by
  refine read fun s => ?_
  cases s.form v <;> dsimp only
  case builtinClass type => exact builtinClassMember _ _ _
  case builtinInstance cls => exact bind (hask cls name) fun _ => joinM throughProperty _
  case builtinModule object =>
    exact bind (moduleMember _ _ _) fun _ => ite (bind (childModule _ _) fun _ => pure _) (pure _)
  case constant type value => exact exemplarMember hask type name
  case reflected object =>
    refine read fun t => ?_
    split
    · exact pure _
    · exact bind (valueOf _) fun _ => pure _
  case multiple members => exact joinM (fun member => hask member name) _
  case module p => exact projectMember _ _ _ _
  case userClass c => exact userClassMember hask v c name
  case userInstance cls attributes => exact userInstanceMember hask v cls name
  case function f => exact ite (read fun _ => bind (constantValue _) fun _ => pure _) (pure _)
  case sequence type elements => exact sequenceMember hask v type name
  case iterator type elements => exact iteratorMember hask v type name
  case super cls instances => exact superMember hask cls instances name
  case wrapper w =>
    split
    · exact pure _
    · exact hask _ name
  all_goals exact pure _

end Rules

/-- However deep a lookup goes, and whether it succeeds or fails. -/
theorem member (depth : Nat) (v : ValueId) (name : String) (site : Site) :
    Looks (answerWithin depth v (.member name) site) := by
  induction depth generalizing v name with
  | zero => exact throw _
  | succ depth ih => exact memberOf ih v name

end Looks

end Typeflow.Session
