import Typeflow.Proofs.Lookup.Total
import Typeflow.Proofs.Unseen.Alike

/-! Actions that do not tell sessions that look alike apart: they yield the same and leave such sessions behind. Every
rule that reads names or attributes passes over those without types and assignments. -/
namespace Typeflow.Session

variable {α β : Type} {s t : Session}

/-- Two runs yield the same or fail alike, and the sessions that they leave behind look alike. -/
inductive Matches {α : Type} : EStateM.Result Fault Session α → EStateM.Result Fault Session α → Prop
  | ok {s t : Session} (a : α) (h : Alike s t) : Matches (.ok a s) (.ok a t)
  | error {s t : Session} (e : Fault) (h : Alike s t) : Matches (.error e s) (.error e t)

theorem Matches.cases {a b : EStateM.Result Fault Session α} (h : Matches a b) :
    (∃ value s t, a = .ok value s ∧ b = .ok value t ∧ Alike s t) ∨
      ∃ e s t, a = .error e s ∧ b = .error e t ∧ Alike s t := by
  cases h with
  | ok value still => exact .inl ⟨value, _, _, rfl, rfl, still⟩
  | error e still => exact .inr ⟨e, _, _, rfl, rfl, still⟩

def Echoes (m n : Analysis α) : Prop := ∀ s t, Alike s t → Matches (m s) (n t)

def Blind (m : Analysis α) : Prop := Echoes m m

/-- What is read at a name that is made if need be is what the scope had there. -/
theorem nameIn_noted (c : ScopeId) (name : String) (s : Session) :
    ∃ x, nameIn c name s = .ok x (after (nameIn c name) s) ∧
      (after (nameIn c name) s).noted (some x) = s.noted (s.findName? c name) := by
  cases hf : s.findName? c name with
  | some x =>
    have run := nameIn_of_some hf
    exact ⟨x, by rw [after_of_ok run, run], by rw [after_of_ok run]⟩
  | none =>
    have run := nameIn_of_none hf
    refine ⟨⟨s.records.size⟩, by rw [after_of_ok run, run], ?_⟩
    rw [(Alike.nameIn c name s).noted]
    exact noted_of_le (Nat.le_refl _)

/-- What is read at an attribute that is made if need be is what the instance had there. -/
theorem attributeOf_noted {v cls : ValueId} {attributes : NameMap VarId} (hv : s.form v = .userInstance cls attributes)
    (name : String) :
    ∃ x, attributeOf v name s = .ok (some x) (after (attributeOf v name) s) ∧
      (after (attributeOf v name) s).noted (some x) = s.noted (attributes.find? name) := by
  cases hf : attributes.find? name with
  | some x =>
    have run : attributeOf v name s = .ok (some x) s := by
      simp only [attributeOf, read_run, hv, hf]
      rfl
    exact ⟨x, by rw [after_of_ok run, run], by rw [after_of_ok run]⟩
  | none =>
    refine ⟨⟨s.records.size⟩, ?_, ?_⟩
    · simp only [attributeOf, after_read, read_run, hv, hf]
      rfl
    · rw [(Alike.attributeOf v name s).noted]
      exact noted_of_le (Nat.le_refl _)

namespace Echoes

variable {m n : Analysis α} {f g : α → Analysis β}

theorem bind (h : Echoes m n) (next : ∀ a, Echoes (f a) (g a)) : Echoes (m >>= f) (n >>= g) := by
  intro s t alike
  rcases (h s t alike).cases with ⟨a, r, q, hm, hn, still⟩ | ⟨e, r, q, hm, hn, still⟩
  · rw [bind_of_ok hm, bind_of_ok hn]
    exact next a r q still
  · rw [bind_of_error hm, bind_of_error hn]
    exact .error e still

theorem read {f g : Session → Analysis β} (h : ∀ s t, Alike s t → Echoes (f s) (g t)) :
    Echoes (get >>= f) (get >>= g) := fun s t alike => h s t alike s t alike

theorem modifyGet {f g : Session → α × Session}
    (h : ∀ s t, Alike s t → (g t).1 = (f s).1 ∧ Alike (f s).2 (g t).2) :
    Echoes (modifyGet f : Analysis α) (modifyGet g) := by
  intro s t alike
  obtain ⟨same, still⟩ := h s t alike
  rw [modifyGet_run, modifyGet_run, same]
  exact .ok _ still

/-- Actions that always succeed match if what they leave behind looks alike. -/
theorem of_total {m n : Analysis Unit} (hm : Total m) (hn : Total n)
    (h : ∀ s t, Alike s t → Alike (after m s) (after n t)) : Echoes m n := by
  intro s t alike
  obtain ⟨⟨⟩, first⟩ := hm s
  obtain ⟨⟨⟩, second⟩ := hn t
  rw [first, second]
  exact .ok () (h s t alike)

theorem modify {f g : Session → Session} (h : ∀ s t, Alike s t → Alike (f s) (g t)) :
    Echoes (modify f) (modify g) := of_total (.modify f) (.modify g) h

/-- Actions match that leave behind what looks like what was there before. -/
theorem unseen {m n : Analysis Unit} (hm : Total m) (hn : Total n) (first : ∀ s, Alike s (after m s))
    (second : ∀ t, Alike t (after n t)) : Echoes m n :=
  of_total hm hn fun s t alike => ((first s).symm.trans alike).trans (second t)

end Echoes

namespace Blind

variable {m n : Analysis α} {f : α → Analysis β}

theorem pure (a : α) : Blind (Pure.pure a : Analysis α) := fun _ _ alike => .ok a alike

theorem throw (e : Fault) : Blind (MonadExcept.throw e : Analysis α) := fun _ _ alike => .error e alike

theorem bind (h : Blind m) (next : ∀ a, Blind (f a)) : Blind (m >>= f) := Echoes.bind h next

/-- Of the session nothing is read that sessions that look alike do not share. -/
theorem look {f : Session → Analysis β} (same : ∀ s t, Alike s t → f t = f s) (h : ∀ s, Blind (f s)) :
    Blind (get >>= f) := Echoes.read fun s t alike => same s t alike ▸ h s

theorem ite {c : Prop} [Decidable c] (hm : Blind m) (hn : Blind n) : Blind (if c then m else n) := by
  split
  · exact hm
  · exact hn

theorem composes : Composes @Blind := ⟨pure, bind⟩

theorem forM {f : α → Analysis Unit} (h : ∀ a, Blind (f a)) (items : List α) : Blind (items.forM f) :=
  composes.forM h items

theorem mapM (h : ∀ a, Blind (f a)) (items : List α) : Blind (items.mapM f) := composes.mapM h items

theorem filterMapM {f : α → Analysis (Option β)} (h : ∀ a, Blind (f a)) (items : List α) :
    Blind (items.filterMapM f) := composes.filterMapM h items

theorem joinM {f : α → Analysis ValueSet} (h : ∀ a, Blind (f a)) (items : List α) :
    Blind (ValueSet.joinM items f) := composes.joinM h items

section Universe

/-- What is kept for a key is the same in sessions that look alike, and may be put into both. -/
theorem recalled {κ : Type} [BEq κ] {field : CacheField Session κ ValueId} {key : κ} {make : Analysis Found}
    (reads : ∀ s t, Alike s t → field.read t = field.read s)
    (writes : ∀ cache s t, Alike s t → Alike (field.write cache s) (field.write cache t)) (h : Blind make) :
    Blind (field.recall key make) := by
  intro s t alike
  simp only [CacheField.recall, reads s t alike]
  cases (field.read s).find? key with
  | some kept => exact .ok kept alike
  | none =>
    dsimp only
    rcases (h _ _ (writes ((field.read s).reserve key) s t alike)).cases with
      ⟨value, r, q, hs, ht, still⟩ | ⟨e, r, q, hs, ht, still⟩
    · rw [hs, ht]
      dsimp only
      rw [reads r q still]
      exact .ok value (writes _ r q still)
    · rw [hs, ht]
      dsimp only
      rw [reads r q still]
      exact .error e (writes _ r q still)

theorem count (name : String) (delta : Nat) : Blind (Session.count name delta) :=
  Echoes.modify fun _ _ h => h.beside (by rw [h.frame]) ⟨rfl, rfl, rfl⟩ ⟨rfl, rfl, rfl⟩

theorem writeLog (category : LogCategory) (message : String) : Blind (Session.writeLog category message) :=
  Echoes.modify fun _ _ h => h.beside (by rw [h.frame]) ⟨rfl, rfl, rfl⟩ ⟨rfl, rfl, rfl⟩

theorem newValue (name description : String) (type : MemberType) (form : Form) :
    Blind (Session.newValue name description type form) :=
  Echoes.modifyGet fun _ _ h => ⟨by rw [h.made], h.withValue _⟩

theorem keptOr {v : ValueId} {slot : Slot} {make : Analysis ValueId} (h : Blind make) :
    Blind (Session.keptOr v slot make) := by
  refine look (fun s t alike => ?_) fun s => ?_
  · simp only [Value.kept?, alike.kept]
  · split
    · exact pure _
    · refine bind h fun made => bind (Echoes.modify fun s t alike => alike.setValue ⟨?_, (alike.value v).form⟩)
        fun _ => pure _
      rw [Value.keep, (alike.value v).rest]
      rfl

theorem objectValue {object : ObjectId} {make : Analysis ValueId} (h : Blind make) :
    Blind (Session.objectValue object make) :=
  recalled (fun s t alike => alike.objectValues)
    (fun cache s t alike => alike.beside (by rw [objectField, alike.frame]) ⟨rfl, rfl, rfl⟩ ⟨rfl, rfl, rfl⟩)
    (bind (count _ _) fun _ => bind h fun _ => pure _)

theorem classOf (type : ObjectId) : Blind (Session.classOf type) :=
  objectValue (look (fun s t alike => by simp only [alike.host]) fun _ => newValue _ _ _ _)

theorem classOf? (type : Option ObjectId) : Blind (Session.classOf? type) := by
  cases type with
  | none => exact pure _
  | some type => exact classOf type

theorem knownType (id : TypeId) : Blind (Session.knownType id) :=
  look (fun s t alike => by simp only [alike.host]) fun _ => classOf? _

theorem moduleOfObject (object : ObjectId) : Blind (Session.moduleOfObject object) :=
  objectValue (look (fun s t alike => by simp only [alike.host]) fun _ => newValue _ _ _ _)

theorem classNameOr (cls : Found) (word : String) : Blind (Session.classNameOr cls word) := by
  cases cls with
  | none => exact pure _
  | some cls => exact look (fun s t alike => by simp only [alike.name]) fun _ => pure _

theorem builtinInstance (cls : ValueId) : Blind (Session.builtinInstance cls) := by
  refine Echoes.read fun s t alike => ?_
  rcases alike.value_cases cls with ⟨same, -⟩ | ⟨_, _, _, hs, ht, -⟩
  · rw [same]
    dsimp only
    split
    · exact bind (keptOr (newValue _ _ _ _)) fun _ => pure _
    · exact pure _
  · dsimp only
    rw [hs, ht]
    exact pure _

theorem userInstance (cls : ValueId) : Blind (Session.userInstance cls) := by
  refine Echoes.read fun s t alike => ?_
  rcases alike.value_cases cls with ⟨same, -⟩ | ⟨_, _, _, hs, ht, -⟩
  · rw [same]
    dsimp only
    split
    · exact bind (keptOr (newValue _ _ _ _)) fun _ => pure _
    · exact pure _
  · dsimp only
    rw [hs, ht]
    exact pure _

theorem instancesOf (v : ValueId) : Blind (Session.instancesOf v) := by
  refine Echoes.read fun s t alike => ?_
  rcases alike.form_cases v with ⟨same, -⟩ | ⟨_, _, _, hs, ht, -⟩
  · rw [same]
    split
    · exact bind (builtinInstance _) fun _ => pure _
    · exact bind (userInstance _) fun _ => pure _
    · exact pure _
  · rw [hs, ht]
    exact pure _

theorem instancesOfType (type : Option ObjectId) : Blind (Session.instancesOfType type) := by
  refine bind (classOf? type) fun found => ?_
  cases found with
  | none => exact pure _
  | some cls => exact instancesOf cls

theorem constantValue (value : Constant) : Blind (Session.constantValue value) :=
  recalled (fun s t alike => alike.constants)
    (fun cache s t alike => alike.beside (by rw [constantField, alike.frame]) ⟨rfl, rfl, rfl⟩ ⟨rfl, rfl, rfl⟩)
    (bind (count _ _) fun _ => look (fun s t alike => by simp only [isV3, alike.options]) fun _ =>
      bind (knownType _) fun _ => bind (classNameOr _ _) fun _ => bind (newValue _ _ _ _) fun _ => pure _)

theorem aggregate (members : List Found) : Blind (Session.aggregate members) := by
  unfold Session.aggregate
  split
  · exact pure _
  · exact pure _
  · refine recalled (fun s t alike => alike.aggregates)
      (fun cache s t alike => alike.beside (by rw [aggregateField, alike.frame]) ⟨rfl, rfl, rfl⟩ ⟨rfl, rfl, rfl⟩) ?_
    exact look (fun s t alike => by simp only [alike.name, alike.description]) fun _ =>
      bind (newValue _ _ _ _) fun _ => pure _

theorem boundMethod (function self : ValueId) : Blind (Session.boundMethod function self) :=
  recalled (fun s t alike => alike.boundMethods)
    (fun cache s t alike => alike.beside (by rw [boundField, alike.frame]) ⟨rfl, rfl, rfl⟩ ⟨rfl, rfl, rfl⟩)
    (look (fun s t alike => by simp only [alike.name]) fun _ => bind (newValue _ _ _ _) fun _ => pure _)

theorem unclassifiedValue (object : ObjectId) : Blind (Session.unclassifiedValue object) := by
  refine look (fun s t alike => by simp only [alike.host]) fun s => bind (classOf? _) fun declared => ?_
  cases declared with
  | some cls => exact builtinInstance cls
  | none =>
    refine bind (count _ _) fun _ => look (fun s t alike => by simp only [alike.host]) fun _ =>
      look (fun s t alike => by simp only [alike.options]) fun _ => ite (throw _) (bind (writeLog _ _) fun _ => ?_)
    refine bind (knownType _) fun found => ?_
    cases found with
    | some cls => exact builtinInstance cls
    | none => exact pure _

theorem simpleValue (object : ObjectId) (kind : HostKind) : Blind (Session.simpleValue object kind) := by
  cases kind with
  | type => exact classOf object
  | function | methodDescriptor =>
    exact objectValue (look (fun s t alike => by simp only [alike.host]) fun _ => newValue _ _ _ _)
  | property | memberContainer => exact objectValue (newValue _ _ _ _)
  | module => exact moduleOfObject object
  | constant =>
    exact objectValue (look (fun s t alike => by simp only [alike.host]) fun _ => bind (classOf? _) fun _ =>
      bind (classNameOr _ _) fun _ => newValue _ _ _ _)
  | primitive =>
    refine look (fun s t alike => by simp only [alike.host]) fun _ => ?_
    split
    · exact constantValue _
    · exact pure _
  | multipleMembers | unknown => exact unclassifiedValue object

theorem valueOfWithin (depth : Nat) (object : Option ObjectId) : Blind (Session.valueOfWithin depth object) := by
  induction depth generalizing object with
  | zero =>
    cases object with
    | none => exact constantValue _
    | some o => exact throw _
  | succ depth ih =>
    cases object with
    | none => exact constantValue _
    | some o =>
      refine look (fun s t alike => by simp only [alike.host]) fun s => ?_
      dsimp only
      split
      · exact bind (mapM ih _) fun _ => aggregate _
      · exact simpleValue _ _

theorem valueOf (object : Option ObjectId) : Blind (Session.valueOf object) :=
  look (fun s t alike => by simp only [objectDepth, alike.host]) fun _ => valueOfWithin _ _

theorem objectMembers (object : ObjectId) : Blind (Session.objectMembers object) := by
  refine look (fun s t alike => by simp only [alike.host]) fun s => bind (filterMapM (fun pair => ?_) _) fun _ => pure _
  cases pair.2 with
  | none => exact pure _
  | some member => exact bind (valueOf _) fun _ => pure _

theorem importObject (name : String) : Blind (Session.importObject name) :=
  Echoes.modifyGet fun s t alike =>
    ⟨by rw [alike.host], alike.beside (by rw [alike.frame]) ⟨rfl, rfl, rfl⟩ ⟨rfl, rfl, rfl⟩⟩

end Universe

section Modules

theorem enqueue (u : UnitId) (place : QueueEnd) : Blind (Session.enqueue u place) :=
  Echoes.unseen (total_enqueue u place) (total_enqueue u place) (Alike.enqueue u place) (Alike.enqueue u place)

/-- The readers of more names may be told in one session than in the other. -/
theorem clearModule (m : ValueId) : Blind (Session.clearModule m) := by
  refine Echoes.read fun s t alike => ?_
  rcases alike.form_cases m with ⟨same, -⟩ | ⟨_, _, _, hs, ht, -⟩
  · rw [same]
    split
    · next p _ =>
      refine Echoes.read fun s t _ => Echoes.bind ?_ fun _ => ?_
      · exact Echoes.unseen (.forM total_notifyReaders _) (.forM total_notifyReaders _) (Alike.forM_notifyReaders _)
          (Alike.forM_notifyReaders _)
      · exact Echoes.of_total (total_clearNames _) (total_clearNames _) fun s t alike => alike.withoutNames p.scope
    · exact pure _
  · rw [hs, ht]
    exact pure _

theorem enqueueEntry (e : EntryId) : Blind (Session.enqueueEntry e) := by
  refine look (fun s t alike => by simp only [alike.entry]) fun s => ite (pure _) ?_
  split
  · exact pure _
  · refine bind (Echoes.modify fun s t alike => ?_) fun _ => bind (clearModule _) fun _ => enqueue _ _
    exact alike.beside (by rw [alike.frame]) ⟨rfl, rfl, rfl⟩ ⟨rfl, rfl, rfl⟩

theorem specializeModule (m : ValueId) (qualified : String) (spec : Specialization) :
    Blind (Session.specializeModule m qualified spec) := by
  intro s t alike
  have installs : ∀ {r : Session} {cls : ValueId} {attributes : NameMap VarId},
      (r.value m).form = .userInstance cls attributes →
        Session.specializeModule m qualified spec r =
          .ok () (r.setValue m { r.value m with table := (r.value m).table.insert qualified spec }) := by
    intro r cls attributes hr
    simp only [Session.specializeModule, read_run, hr]
    rfl
  rcases alike.value_cases m with ⟨same, -⟩ | ⟨_, _, _, hs, ht, -⟩
  · unfold Session.specializeModule
    rw [read_run, read_run, same]
    refine Echoes.bind (Echoes.modify fun s t alike => alike.setValue (.refl _ _)) (fun _ => ?_) s t alike
    split
    · exact look (fun s t alike => by simp only [alike.entry]) fun _ => ite (enqueueEntry _) (pure _)
    · exact pure _
  · rw [installs hs, installs ht]
    refine .ok () (alike.setValue ⟨?_, alike.form m⟩)
    rw [(alike.value m).rest]

theorem install (r : Registration) : Blind (Session.install r) := by
  refine look (fun s t alike => by simp only [alike.targetOf?]) fun s => ?_
  split
  · exact writeLog _ _
  · exact bind (specializeModule _ _ _) fun _ => bind (count _ _) fun _ =>
      look (fun s t alike => by simp only [alike.name]) fun _ => writeLog _ _

theorem installFor (name : String) : Blind (Session.installFor name) :=
  look (fun s t alike => by simp only [registrationsFor, alike.registrations]) fun _ => forM install _

theorem updateRef (r : RefId) (f : ModuleRef → ModuleRef) : Blind (Session.updateRef r f) :=
  Echoes.modify fun s t alike => alike.beside (by rw [alike.frame]) ⟨rfl, rfl, rfl⟩ ⟨rfl, rfl, rfl⟩

theorem lookupModule (name : String) : Blind (Session.lookupModule name) := by
  refine look (fun s t alike => by simp only [alike.peek?]) fun s => ?_
  split
  · exact pure _
  · refine look (fun s t alike => by simp only [alike.ref]) fun s => ite (pure _) (bind (importObject name) fun object => ?_)
    cases object with
    | none => exact bind (updateRef _ _) fun _ => pure _
    | some object =>
      exact bind (moduleOfObject object) fun m => bind (updateRef _ _) fun _ => bind (writeLog _ _) fun _ =>
        bind (installFor name) fun _ => pure _

theorem moduleNamed (name : String) : Blind (Session.moduleNamed name) := by
  refine bind (lookupModule name) fun found => ?_
  cases found with
  | none => exact pure _
  | some r => exact look (fun s t alike => by simp only [alike.ref]) fun _ => pure _

theorem builtinsModule : Blind Session.builtinsModule :=
  look (fun s t alike => by simp only [alike.options]) fun _ => moduleNamed _

theorem childWithin (name : String) (depth : Nat) (m : ValueId) : Blind (Session.childWithin name depth m) := by
  induction depth generalizing m with
  | zero => exact throw _
  | succ depth ih =>
    refine Echoes.read fun s t alike => ?_
    rcases alike.value_cases m with ⟨same, -⟩ | ⟨_, _, _, hs, ht, -⟩
    · rw [same]
      dsimp only
      split
      · exact bind (mapM ih _) fun _ => aggregate _
      · exact moduleNamed _
      · exact moduleNamed _
      · exact pure _
    · dsimp only
      rw [hs, ht]
      exact pure _

theorem childModule (m : ValueId) (name : String) : Blind (Session.childModule m name) :=
  look (fun s t alike => by simp only [valueDepth, alike.made]) fun _ => childWithin _ _ _

theorem childrenInTable (name : String) : Blind (Session.childrenInTable name) := by
  refine look (fun s t alike => by simp only [alike.modules]) fun s => bind (filterMapM (fun child => ?_) _) fun _ => pure _
  exact bind (moduleNamed _) fun _ => pure _

theorem childrenWithin (depth : Nat) (m : ValueId) : Blind (Session.childrenWithin depth m) := by
  induction depth generalizing m with
  | zero => exact throw _
  | succ depth ih =>
    refine Echoes.read fun s t alike => ?_
    rcases alike.value_cases m with ⟨same, -⟩ | ⟨_, _, _, hs, ht, -⟩
    · rw [same]
      dsimp only
      split
      · exact bind (mapM ih _) fun _ => pure _
      · exact childrenInTable _
      · exact childrenInTable _
      · exact pure _
    · dsimp only
      rw [hs, ht]
      exact pure _

theorem childModules (m : ValueId) : Blind (Session.childModules m) :=
  look (fun s t alike => by simp only [valueDepth, alike.made]) fun _ => childrenWithin _ _

end Modules

section Members

theorem newWrapper (wrapped : Found) (qualified : String) (source : WrapperSource) :
    Blind (Session.newWrapper wrapped qualified source) := by
  cases wrapped with
  | none => exact look (fun _ _ _ => rfl) fun _ => newValue _ _ _ _
  | some v => exact look (fun s t alike => by simp only [alike.name, alike.memberType]) fun _ => newValue _ _ _ _

theorem wrapAll (generic : ValueSet) (name : String) (source : WrapperSource) :
    Blind (do Session.newWrapper (← Session.aggregate (generic.items.map some)) name source) :=
  bind (aggregate _) fun _ => newWrapper _ _ _

theorem keptSet {v : ValueId} {slot : Slot} {make : Analysis ValueId} (h : Blind make) :
    Blind (do return ValueSet.single (← Session.keptOr v slot make)) := bind (keptOr h) fun _ => pure _

theorem memberWrapper (v : ValueId) (name qualified : String) (wrapped : Found) (table : ValueId) :
    Blind (Session.memberWrapper v name qualified wrapped table) := keptSet (newWrapper _ _ _)

theorem typeMember (cls : ValueId) (type : ObjectId) (name : String) :
    Blind (Session.typeMember cls type name) := by
  refine look (fun s t alike => by simp only [alike.host]) fun s => ?_
  split
  · exact pure _
  · refine bind (valueOf _) fun found => look (fun s t alike => ?_) fun t => ?_
    · simp only [alike.host, alike.loadedModule?, alike.specialization?]
    · dsimp only
      split
      · exact pure _
      · exact ite (memberWrapper _ _ _ _ _) (pure _)

theorem builtinClassMember (cls : ValueId) (type : ObjectId) (name : String) :
    Blind (Session.builtinClassMember cls type name) := by
  refine look (fun s t alike => by simp only [alike.host]) fun s => ite (keptSet ?_) (typeMember _ _ _)
  exact bind (typeMember _ _ _) fun _ => wrapAll _ _ _

theorem moduleMember (m : ValueId) (object : ObjectId) (name : String) :
    Blind (Session.moduleMember m object name) := by
  refine look (fun s t alike => by simp only [alike.host]) fun s => ?_
  split
  · exact pure _
  · exact bind (valueOf _) fun _ => look (fun s t alike => by simp only [alike.specialization?]) fun _ =>
      ite (memberWrapper _ _ _ _ _) (pure _)

theorem throughProperty (v : ValueId) : Blind (Session.throughProperty v) := by
  refine Echoes.read fun s t alike => ?_
  rcases alike.form_cases v with ⟨same, -⟩ | ⟨_, _, _, hs, ht, -⟩
  · rw [same]
    split
    · exact look (fun s t alike => by simp only [alike.host]) fun _ => instancesOfType _
    · exact pure _
  · rw [hs, ht]
    exact pure _

theorem throughInstance (self v : ValueId) : Blind (Session.throughInstance self v) :=
  look (fun s t alike => by simp only [alike.bindsToInstance]) fun _ =>
    ite (bind (boundMethod _ _) fun _ => pure _) (throughProperty v)

theorem throughSuper (instances : ValueSet) (v : ValueId) : Blind (Session.throughSuper instances v) :=
  look (fun s t alike => by simp only [alike.bindsToInstance]) fun _ =>
    ite (pure _) (joinM (fun _ => bind (boundMethod _ _) fun _ => pure _) _)

theorem addReader (x : VarId) (u : UnitId) : Blind (Session.addReader x u) :=
  Echoes.unseen (.modify _) (.modify _) (Alike.addReader x u) (Alike.addReader x u)

theorem readAt (x : VarId) (site : Site) : Blind (Session.readAt x site) :=
  bind (addReader _ _) fun _ => look (fun s t alike => by simp only [alike.types]) fun _ => pure _

/-- After a name is made if need be, its record may be another one in each session but holds the same. -/
theorem named {c : ScopeId} {name : String} {f : VarId → Analysis α}
    (h : ∀ x y s t, Alike s t → t.noted (some y) = s.noted (some x) → Matches (f x s) (f y t)) :
    Blind (Session.nameIn c name >>= f) := by
  intro s t alike
  obtain ⟨x, hx, first⟩ := nameIn_noted c name s
  obtain ⟨y, hy, second⟩ := nameIn_noted c name t
  rw [bind_of_ok hx, bind_of_ok hy]
  refine h x y _ _ (((Alike.nameIn c name s).symm.trans alike).trans (Alike.nameIn c name t)) ?_
  rw [first, second]
  exact alike.noted_of_filter ((alike.scope c).names.found name)

/-- So may the record of an attribute. Other values than instances have none. -/
theorem attributed {v : ValueId} {name : String} {f : Option VarId → Analysis α} (bare : Blind (f none))
    (h : ∀ x y s t, Alike s t → t.noted (some y) = s.noted (some x) → Matches (f (some x) s) (f (some y) t)) :
    Blind (Session.attributeOf v name >>= f) := by
  intro s t alike
  rcases alike.form_cases v with ⟨same, other⟩ | ⟨cls, m, n, hs, ht, names⟩
  · cases hv : s.form v with
    | userInstance => exact absurd (by rw [hv]; rfl) other
    | _ =>
      simp only [Session.attributeOf, bind_assoc, read_run, same, hv]
      exact bare s t alike
  · obtain ⟨x, hx, first⟩ := attributeOf_noted hs name
    obtain ⟨y, hy, second⟩ := attributeOf_noted ht name
    rw [bind_of_ok hx, bind_of_ok hy]
    refine h x y _ _ (((Alike.attributeOf v name s).symm.trans alike).trans (Alike.attributeOf v name t)) ?_
    rw [first, second]
    exact alike.noted_of_filter (names.found name)

theorem exemplarOf (type : Found) : Blind (Session.exemplarOf type) := by
  cases type with
  | none => exact pure _
  | some cls => exact builtinInstance cls

/-- Records that hold the same are read in the same way. -/
theorem readThen {x y : VarId} {site : Site} {f : ValueSet → Analysis α} (h : ∀ own, Blind (f own)) (alike : Alike s t)
    (same : t.noted (some y) = s.noted (some x)) :
    Matches ((Session.readAt x site >>= f) s) ((Session.readAt y site >>= f) t) := by
  have first : Session.readAt x site s = .ok ((after (Session.addReader x site.unit) s).types x)
    (after (Session.addReader x site.unit) s) := rfl
  have second : Session.readAt y site t = .ok ((after (Session.addReader y site.unit) t).types y)
    (after (Session.addReader y site.unit) t) := rfl
  rw [bind_of_ok first, bind_of_ok second, (Alike.addReader x site.unit s).types, (Alike.addReader y site.unit t).types,
    show t.types y = s.types x from congrArg Prod.fst same]
  exact h _ _ _ (((Alike.addReader _ _ s).symm.trans alike).trans (Alike.addReader _ _ t))

theorem projectMember (m : ValueId) (p : ProjectModule) (name : String) (site : Site) :
    Blind (Session.projectMember m p name site) := by
  refine named fun x y s t alike same => ?_
  have first := Alike.addReader x site.unit s
  have second := Alike.addReader y site.unit t
  replace same : (after (Session.addReader y site.unit) t).noted (some y) =
      (after (Session.addReader x site.unit) s).noted (some x) := by
    rw [first.noted, second.noted, same]
  have types : ((after (Session.addReader y site.unit) t).var y).types =
      ((after (Session.addReader x site.unit) s).var x).types := congrArg Prod.fst same
  have places : ((after (Session.addReader y site.unit) t).var y).assignments =
      ((after (Session.addReader x site.unit) s).var x).assignments := congrArg Prod.snd same
  have reads : ∀ z r, Session.addReader z site.unit r = .ok () (after (Session.addReader z site.unit) r) :=
    fun _ _ => rfl
  rw [bind_of_ok (reads x s), bind_of_ok (reads y t), read_run, read_run, Variable.isBound,
    Variable.isBound, types, places]
  exact ite (pure _) (bind (childModule _ _) fun _ => pure _) _ _ ((first.symm.trans alike).trans second)

end Members

section Rules

theorem whileResolving {cls : ValueId} {search : Analysis α} (h : Blind search) :
    Blind (Session.whileResolving cls search) := by
  intro s t alike
  rw [whileResolving_run, whileResolving_run]
  rcases (h _ _ (alike.setResolving cls true)).cases with ⟨a, r, q, hs, ht, still⟩ | ⟨e, r, q, hs, ht, still⟩
  · rw [hs, ht]
    exact .ok a (still.setResolving cls false)
  · rw [hs, ht]
    exact .error e (still.setResolving cls false)

variable {ask : Ask} {site : Site} (hask : ∀ v name, Blind (ask v (.member name) site))
include hask

theorem exemplarMember (type : Found) (name : String) : Blind (Session.exemplarMember ask type name site) := by
  refine bind (exemplarOf type) fun found => ?_
  cases found with
  | none => exact pure _
  | some v => exact hask v name

theorem sequenceMember (v : ValueId) (type : Found) (name : String) :
    Blind (Session.sequenceMember ask v type name site) := by
  refine bind (exemplarMember hask type name) fun generic => ?_
  split
  · exact look (fun s t alike => by simp only [alike.isList]) fun _ => ite (keptSet (wrapAll _ _ _)) (pure _)
  · exact pure _

theorem iteratorMember (v : ValueId) (type : Found) (name : String) :
    Blind (Session.iteratorMember ask v type name site) :=
  bind (exemplarMember hask type name) fun _ => look (fun s t alike => by rw [alike.nextMethod])
    fun _ => ite (pure _) (keptSet (wrapAll _ _ _))

/-- A class that has a name without types passes the search on, as one does that lacks the name. -/
theorem userClassMember (cls : ValueId) (c : UserClass) (name : String) :
    Blind (Session.userClassMember ask cls c name site) := by
  refine named fun x y s t alike same => readThen (fun own => ite (pure _) (bind (readAt _ site) fun bases => ?_)) alike same
  exact look (fun s t alike => by simp only [alike.isResolving]) fun _ =>
    ite (pure _) (whileResolving (joinM (fun base => hask base name) _))

theorem userInstanceMember (v cls : ValueId) (name : String) :
    Blind (Session.userInstanceMember ask v cls name site) := by
  have rest : ∀ own : ValueSet, Blind (do
      let fromClass ← ask cls (.member name) site
      return own.join (← ValueSet.joinM fromClass.items (Session.throughInstance v))) := fun own =>
    bind (hask cls name) fun _ => bind (joinM (throughInstance v) _) fun _ => pure _
  exact attributed (bind (pure _) rest) fun x y s t alike same => readThen rest alike same

theorem superMember (cls : ValueId) (instances : ValueSet) (name : String) :
    Blind (Session.superMember ask cls instances name site) := by
  refine Echoes.read fun s t alike => ?_
  rcases alike.form_cases cls with ⟨same, -⟩ | ⟨_, _, _, hs, ht, -⟩
  · rw [same]
    split
    · exact bind (readAt _ site) fun _ => joinM (fun base => bind (hask base name) fun _ =>
        joinM (throughSuper instances) _) _
    · exact pure _
  · rw [hs, ht]
    exact pure _

theorem memberOf (v : ValueId) (name : String) : Blind (Session.memberOf ask v name site) := by
  refine Echoes.read fun s t alike => ?_
  rcases alike.form_cases v with ⟨same, -⟩ | ⟨cls, _, _, hs, ht, -⟩
  · rw [same]
    cases s.form v <;> dsimp only
    case builtinClass type => exact builtinClassMember _ _ _
    case builtinInstance cls => exact bind (hask cls name) fun _ => joinM throughProperty _
    case builtinModule object =>
      exact bind (moduleMember _ _ _) fun _ => ite (bind (childModule _ _) fun _ => pure _) (pure _)
    case constant type value => exact exemplarMember hask type name
    case reflected object =>
      refine look (fun s t alike => by simp only [alike.host]) fun t => ?_
      split
      · exact pure _
      · exact bind (valueOf _) fun _ => pure _
    case multiple members => exact joinM (fun member => hask member name) _
    case module p => exact projectMember _ _ _ _
    case userClass c => exact userClassMember hask v c name
    case userInstance cls attributes => exact userInstanceMember hask v cls name
    case function f =>
      exact ite (look (fun s t alike => by simp only [alike.name]) fun _ => bind (constantValue _) fun _ => pure _)
        (pure _)
    case sequence type elements => exact sequenceMember hask v type name
    case iterator type elements => exact iteratorMember hask v type name
    case super cls instances => exact superMember hask cls instances name
    case wrapper w =>
      split
      · exact pure _
      · exact hask _ name
    all_goals exact pure _
  · rw [hs, ht]
    exact userInstanceMember hask v cls name

end Rules

theorem member (depth : Nat) (v : ValueId) (name : String) (site : Site) :
    Blind (answerWithin depth v (.member name) site) := by
  induction depth generalizing v name with
  | zero => exact throw _
  | succ depth ih => exact memberOf ih v name

/-- The names that a class has, over those that it inherits. -/
theorem overInherited (c : UserClass) (inherited : List (NameMap ValueSet)) :
    Blind (do
      let own := (← get).typedNames ((← get).scope c.scope).names
      return own.toList.foldl (fun all pair => all.insert pair.1 pair.2) (inherited.foldl joinMembers {})) := by
  intro s t alike
  rw [read_run, read_run, read_run, read_run, alike.typedNames (alike.scope c.scope).names]
  exact .ok _ alike

theorem allMembersWithin (depth : Nat) (v : ValueId) : Blind (Session.allMembersWithin depth v) := by
  induction depth generalizing v with
  | zero => exact throw _
  | succ depth ih =>
    refine Echoes.read fun s t alike => ?_
    rcases alike.value_cases v with ⟨same, other⟩ | ⟨cls, _, _, hs, ht, -⟩
    · rw [same]
      dsimp only
      cases hv : (s.value v).form
      case builtinClass type => exact objectMembers _
      case builtinInstance cls => exact ih cls
      case builtinModule object =>
        exact look (fun s t alike => by simp only [alike.host]) fun _ =>
          bind (mapM (fun name => bind (moduleMember _ _ _) fun _ => pure _) _) fun _ => pure _
      case reflected object => exact objectMembers _
      case multiple members => exact bind (mapM ih _) fun _ => pure _
      case module p => exact look (fun s t alike => by rw [alike.boundNames (alike.scope p.scope).names]) fun _ => pure _
      case userClass c =>
        refine look (fun s t alike => by simp only [alike.isResolving]) fun _ => ?_
        split
        · exact bind (pure _) (overInherited c)
        · exact look (fun s t alike => by simp only [alike.types]) fun _ =>
            bind (whileResolving (mapM ih _)) (overInherited c)
      case userInstance => exact absurd (by rw [Value.kind, hv]; rfl) other
      case sequence type elements =>
        cases type with
        | none => exact pure _
        | some other => exact ih other
      case wrapper w =>
        obtain ⟨wrapped, qualified, source⟩ := w
        cases wrapped with
        | none => exact pure _
        | some other => exact ih other
      all_goals exact pure _
    · dsimp only
      rw [hs, ht]
      refine Blind.bind (ih cls) fun inherited s t alike => ?_
      rw [read_run, read_run]
      rcases alike.form_cases v with ⟨same, other⟩ | ⟨_, _, _, hs, ht, names⟩
      · rw [same]
        cases hv : s.form v with
        | userInstance => exact absurd (by rw [hv]; rfl) other
        | _ => exact .ok _ alike
      · rw [hs, ht]
        dsimp only
        rw [read_run, read_run, alike.typedNames names]
        exact .ok _ alike

theorem allMembers (v : ValueId) : Blind (Session.allMembers v) :=
  look (fun s t alike => by simp only [memberDepth, alike.made]) fun _ => allMembersWithin _ _

end Blind

end Typeflow.Session
