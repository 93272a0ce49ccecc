import Typeflow.Proofs.Roam.Members
import Typeflow.Session.Answer

/-! Answering a question about values of a realm stays within it, however far the question leads. -/
namespace Typeflow.Session

def Realm.arguments (R : Realm) (a : Arguments) : Prop := ∀ values ∈ a.sets, R.set values

private theorem Realm.arguments_get {R : Realm} {a : Arguments} (h : R.arguments a) (i : Nat) :
    R.set (a.get i) := by
  rw [Arguments.get, List.getD_eq_getElem?_getD]
  cases hi : a.sets[i]? with
  | none => exact Realm.set_empty
  | some values => exact h values (List.mem_of_getElem? hi)

/-- What a replacement yields, if it has an opinion, belongs to the realm. -/
def Realm.opinion (R : Realm) (result : Option ValueSet) : Prop :=
  ∀ values, result = some values → R.set values

private theorem Realm.opinion_none {R : Realm} : R.opinion none := nofun

private theorem Realm.opinion_some {R : Realm} {values : ValueSet} (h : R.set values) :
    R.opinion (some values) := by
  rintro _ ⟨⟩
  exact h

private theorem Realm.opinion_getD {R : Realm} {result : Option ValueSet} {generic : ValueSet}
    (h : R.opinion result) (hg : R.set generic) : R.set (result.getD generic) := by
  cases result with
  | none => exact hg
  | some values => exact h values rfl

namespace Roams

open Within

variable {L : Licence} {R : Realm} {ask : Ask} {site : Site}

theorem addToParam (f : UserFunction) (name : String) {values : ValueSet} (h : R.set values) :
    Roams L R (Session.addToParam f name values) fun _ => True := by
  refine .read fun s _ => ?_
  split
  · exact .pure trivial
  · exact addTypes h

/-- The tuple of the left-over arguments is made together with the slot that keeps it. -/
theorem keptSequence (v : ValueId) {type : Found} (ht : R.found type) : Roams L R (do
    let made ← Session.newSequence type
    modify fun t => t.setValue v ((t.value v).keep .rest made)
    return made) R.value := by
  intro s hs
  obtain ⟨name, run⟩ := newSequence_run type s
  let recorded : Session := { s with records := s.records.push { cap := s.options.limits.variableTypes } }
  let tuple : Value := ⟨name, name, .instance_, .sequence type ⟨s.records.size⟩, {}, []⟩
  let made := recorded.withValue tuple
  have fresh : R.value s.nextValue := hs.newValue _ (Nat.le_refl _)
  have counted : R.record ⟨s.records.size⟩ := hs.newRecord _ (Nat.le_refl _)
  have elements : made.HasElements s.nextValue :=
    ⟨type, ⟨s.records.size⟩, (form_push recorded tuple s.nextValue).trans (if_pos rfl), by
      simp [made, recorded, withValue]⟩
  have steps : Steps L s made :=
    .tail (.single (.newVariable _)) (.makeValue tuple rfl rfl)
  have fine : Changes R s made :=
    .tail (.single (.newRecord _)) (.make name name .instance_ _ rfl (by rintro ⟨⟩) ⟨ht, counted⟩)
  have ends : (Session.newSequence type >>= fun made => do
      modify fun t => t.setValue v ((t.value v).keep .rest made)
      return made : Analysis ValueId) s = .ok s.nextValue _ := bind_of_ok run
  rw [after_of_ok ends, ends]
  refine ⟨.single (.steps (steps.tail (.amendValue v _ rfl fun w kept => ?_))
    (fine.tail (.keep v .rest s.nextValue (by decide) (by decide) fresh))), fun a q same => by cases same; exact fresh⟩
  rw [Value.kept?_keep, if_pos rfl] at kept
  cases kept
  exact .inr elements

theorem restTuple {v : ValueId} (hv : R.value v) : Roams L R (Session.restTuple v) R.value := by
  refine .read fun s hs => ?_
  cases hk : (s.value v).kept? .rest with
  | some made => exact .pure (hs.kept v hv .rest made hk)
  | none =>
    rw [bind_assoc]
    exact .bind (knownType _) fun _ ht => keptSequence v ht

theorem addToRest {v : ValueId} (hv : R.value v) {values : ValueSet} (h : R.set values) :
    Roams L R (Session.addToRest v values) fun _ => True := by
  refine .bind (restTuple hv) fun tuple _ => .read fun s _ => ?_
  split
  · exact addTypes h
  · exact .pure trivial

theorem bindStarred {v : ValueId} (hv : R.value v) (f : UserFunction) :
    Roams L R (Session.bindStarred v f) fun _ => True := by
  unfold Session.bindStarred
  cases lastParam f .rest
  case' none => refine .bind (Q := fun _ => True) (.pure trivial) fun _ _ => ?_
  case' some name =>
    refine .bind (nameIn _ _) fun _ _ => .bind (restTuple hv) fun _ ht =>
      .bind (addTypes (Realm.set_single (Realm.found_some ht))) fun _ _ => ?_
  -- What follows is the same whether there was a parameter for the rest or not.
  all_goals
    cases lastParam f .namedRest with
    | none => exact .bind (Q := fun _ => True) (.pure trivial) fun _ _ => .pure trivial
    | some name =>
      exact .bind (nameIn _ _) fun _ _ => .bind (knownInstance _) fun _ hd =>
        .bind (addTypes hd) fun _ _ => .pure trivial

theorem bindEach {v : ValueId} (hv : R.value v) (f : UserFunction) (changed : Bool)
    (free : List String) {args : List (ValueSet × String)} (h : ∀ arg ∈ args, R.set arg.1) :
    Roams L R (Session.bindEach v f changed free args) fun _ => True := by
  induction args generalizing changed free with
  | nil => exact .pure trivial
  | cons arg rest ih =>
    obtain ⟨values, name⟩ := arg
    have hvalues : R.set values := h _ List.mem_cons_self
    have more := fun changed free => ih changed free fun arg ha => h arg (List.mem_cons_of_mem _ ha)
    refine .ite ?_ (.ite (.bind (addToParam _ _ hvalues) fun _ _ => more _ _) (more _ _))
    cases free with
    | cons param free => exact .bind (addToParam _ _ hvalues) fun _ _ => more _ _
    | nil => exact .ite (.bind (addToRest hv hvalues) fun _ _ => more _ _) (more _ _)

theorem bindArguments {v : ValueId} (hv : R.value v) (f : UserFunction) {args : List ValueSet}
    (h : ∀ values ∈ args, R.set values) (names : List String) :
    Roams L R (Session.bindArguments v f args names) fun _ => True := by
  refine .bind (bindStarred hv f) fun _ _ => bindEach hv _ _ _ fun arg ha => ?_
  obtain ⟨given, hg, rfl⟩ := List.mem_map.1 ha
  exact h _ (List.fst_mem_of_mem_zipIdx hg)

theorem enqueueBody (v : ValueId) (place : QueueEnd) :
    Roams L R (Session.enqueueBody v place) fun _ => True :=
  of_step (fun _ => .enqueueBody v place) (.enqueueBody v place)

theorem callFunction {v : ValueId} (hv : R.value v) {f : UserFunction} (hf : R.record f.returns)
    {args : List ValueSet} (h : ∀ values ∈ args, R.set values) (names : List String) (site : Site) :
    Roams L R (Session.callFunction v f args names site) R.set :=
  .bind (bindArguments hv f h names) fun _ _ =>
    .ite (.bind (enqueueBody v .back) fun _ _ => readAt hf site) (readAt hf site)

theorem returnedInstances (function : Option ObjectId) :
    Roams L R (Session.returnedInstances function) R.set := by
  cases function with
  | none => exact .pure Realm.set_empty
  | some object =>
    refine fun s hs => Proceeds.read (.joinM hs fun type returned t steps ht => ?_)
    refine instancesOfType ht fun _ same => ?_
    cases same
    exact (Endures.of_touches steps).knowsType (.of_returned returned)

theorem textElements {cls : ValueId} (hc : R.value cls) : Roams L R (Session.textElements cls) R.set :=
  .read fun _ _ => .ite (.pure Realm.set_empty) (.ite (knownInstance _) (instancesOf hc))

theorem sequenceIterator {v : ValueId} (hv : R.value v) {elements : VarId} (he : R.record elements) :
    Roams L R (Session.sequenceIterator v elements) R.set :=
  keptSet hv (by nofun) (by nofun) (by nofun) <| .bind (knownType _) fun _ ht => newIterator ht fun x hx => by
    cases hx
    exact he

theorem recordCall (record : CallRecord) : Roams L R (Session.recordCall record) fun _ => True :=
  of_beside (fun _ => by constructor <;> rfl) fun _ => .of_same rfl rfl rfl rfl rfl

theorem grows_updateResource (r : ResourceId) {f : Resource → Resource}
    (grows : ∀ resource, Resource.Grows resource (f resource)) (s : Session) (q : ResourceId) :
    (s.resource q).Grows ((after (Session.updateResource r f) s).resource q) := by
  rw [resource_updateResource]
  split
  · exact grows _
  · exact .refl _

theorem shelves_updateResource (r : ResourceId) (f : Resource → Resource) (s : Session) :
    Shelves s (after (Session.updateResource r f) s) where
  size := Nat.le_of_eq (Array.size_modify ..).symm
  named _ _ found := .inl found

theorem updateResource (r : ResourceId) {f : Resource → Resource}
    (grows : ∀ resource, Resource.Grows resource (f resource)) :
    Roams L R (Session.updateResource r f) fun _ => True :=
  of_beside (fun _ => by constructor <;> rfl) fun s =>
    .of_growth rfl rfl rfl ⟨.of_eq rfl, grows_updateResource r grows s, shelves_updateResource r f s⟩

/-- The scope of a method names the owners of scopes. -/
theorem owners_of_methodScope? {s : Session} (hs : R.Closed s) {scope : ScopeId} {cls function : ValueId}
    (h : s.methodScope? scope = some (some cls, some function)) : R.value cls ∧ R.value function := by
  obtain ⟨outer, _, h⟩ := Option.bind_eq_some_iff.1 h
  dsimp only at h
  split at h
  · simp only [Option.some.injEq, Prod.mk.injEq] at h
    exact ⟨hs.owner _ _ h.1, hs.owner _ _ h.2⟩
  · cases h

theorem implicitSuper (site : Site) :
    Roams L R (Session.implicitSuper site) fun given => R.set given.classes ∧ R.set given.instances := by
  refine .read fun s hs => ?_
  split
  · next cls function found =>
    obtain ⟨scope, _, around⟩ := List.exists_of_findSome?_eq_some found
    have hc := (owners_of_methodScope? hs around).1
    have single : R.set (.single cls) := Realm.set_single (Realm.found_some hc)
    split
    · exact .ite (.pure ⟨single, Realm.set_empty⟩)
        (.bind (instancesOf hc) fun _ hi => .pure ⟨single, hi⟩)
    · exact .pure ⟨Realm.set_empty, Realm.set_empty⟩
  · exact .pure ⟨Realm.set_empty, Realm.set_empty⟩

theorem setDeclared {s : Session} (hs : R.Closed s) {self : ValueSet} (hself : R.set self) (name : String)
    {type : Option ObjectId} (known : ∀ t, type = some t → s.KnowsType t) (site : Site) :
    Proceeds (Touch L R) (Session.setDeclared self name type site) (fun _ => True) s := by
  refine .bind hs (classOf? hs known) fun found t _ ht hf => ?_
  cases found with
  | none => exact .pure trivial
  | some cls =>
    have gives : Roams L R (self.items.forM fun v => do
        Session.setMember v name (← Session.instancesOf cls) site) fun _ => True :=
      .forM fun v hv => .bind (instancesOf (hf cls rfl)) fun _ hi => setMember (hself v hv) _ hi _
    exact gives t ht

theorem setEachDeclared {s : Session} (hs : R.Closed s) {self : ValueSet} (hself : R.set self)
    {pairs : List (String × Option ObjectId)} (known : ∀ name t, (name, some t) ∈ pairs → s.KnowsType t)
    (site : Site) :
    Proceeds (Touch L R) (pairs.forM fun pair => Session.setDeclared self pair.1 pair.2 site)
      (fun _ => True) s := by
  refine .forM hs fun pair declared t steps ht => setDeclared ht hself _ (fun type same => ?_) site
  exact (Endures.of_touches steps).knowsType (known pair.1 type (by rwa [← same]))

theorem loadComponentAt {a : Arguments} (ha : R.arguments a) (site : Site) :
    Roams L R (Session.loadComponentAt a site) R.opinion := by
  refine fun s hs => Proceeds.read ?_
  split
  · next self path e args _ =>
    have hself : R.set self := ha self (by rw [args]; exact List.mem_cons_self)
    split
    · exact .pure Realm.opinion_none
    · next r _ =>
      have depends : Roams L R (Session.updateResource r fun resource =>
          { resource with dependents := Variable.addOnce e resource.dependents }) fun _ => True :=
        updateResource r fun _ => ⟨rfl, fun _ h => Variable.mem_addOnce.2 (.inr h)⟩
      refine .bind hs (depends s hs) fun _ t steps ht _ => .bind ht (setEachDeclared ht hself ?_ site)
        fun _ _ _ _ _ => .pure (Realm.opinion_some hself)
      exact fun _ _ declared => (Endures.of_touches steps).knowsType (.of_resource declared)
  · exact .pure Realm.opinion_none

private theorem override_of_currentSpecialization {s : Session} (hs : R.Closed s) {w : Wrapper}
    (hw : R.source w.source) {specialization : Specialization}
    (h : s.currentSpecialization w = some specialization) : R.override specialization.override := by
  cases hsource : w.source <;> rw [hsource] at hw <;> simp only [currentSpecialization, hsource] at h
  case fixed fixed =>
    cases h
    exact hw
  case table m => exact hs.table m _ _ h

section Rules

variable (hs : L.keep site.node.id) (hask : Answers L R ask site)

section Asking

include hask

theorem callMember {v : ValueId} (hv : R.value v) (name : String) {args : List ValueSet}
    (h : ∀ values ∈ args, R.set values) (names : List String) :
    Roams L R (ask.callMember v name args names site) R.set :=
  .bind (hask v _ hv trivial) fun _ hm => askAll hask hm h

theorem callClass {cls : ValueId} (hc : R.value cls) {args : List ValueSet}
    (h : ∀ values ∈ args, R.set values) (names : List String) :
    Roams L R (Session.callClass ask cls args names site) R.set := by
  refine .bind (userInstance hc) fun found hf => ?_
  cases found with
  | none => exact .pure Realm.set_empty
  | some self =>
    exact .bind (callMember hask (hf self rfl) _ h _) fun _ _ => .pure (Realm.set_single hf)

theorem askExemplar {type : Found} (ht : R.found type) {q : Question} (hq : R.question q) :
    Roams L R (Session.askExemplar ask type q site) R.set := by
  refine .bind (exemplarOf ht) fun found hf => ?_
  cases found with
  | none => exact .pure Realm.set_empty
  | some v => exact hask v q (hf v rfl) hq

theorem iteratorOf {v : ValueId} (hv : R.value v) :
    Roams L R (Session.iteratorOf ask v site) R.set := by
  refine .read fun s hs => ?_
  split
  · next type value hf => exact askExemplar hask (hs.parts hv hf) trivial
  · next type elements hf => exact sequenceIterator hv (hs.parts hv hf).2
  · exact .pure (Realm.set_single (Realm.found_some hv))
  · exact callMember hask hv _ (List.forall_mem_nil _) _

theorem nextOf {iterator : ValueId} (hi : R.value iterator) :
    Roams L R (Session.nextOf ask iterator site) R.set :=
  .read fun _ _ => .ite (hask _ _ hi trivial) (callMember hask hi _ (List.forall_mem_nil _) _)

theorem elementsByMethod {v : ValueId} (hv : R.value v) :
    Roams L R (Session.elementsByMethod ask v site) R.set :=
  .bind (hask v _ hv trivial) fun _ hm => joinM fun w hw => nextOf hask (hm w hw)

theorem elementsOf {v : ValueId} (hv : R.value v) :
    Roams L R (Session.elementsOf ask v site) R.set := by
  refine .read fun s hs => ?_
  split
  · next type value hf => exact askExemplar hask (hs.parts hv hf) trivial
  · next type elements hf => exact readAt (hs.parts hv hf).2 site
  · next type elements hf => exact readAt (hs.parts hv hf).2 site
  · next cls hf =>
    exact .bind (elementsByMethod hask hv) fun _ hm => .read fun _ _ =>
      .ite (textElements (hs.parts hv hf)) (.pure hm)
  · exact elementsByMethod hask hv

theorem indexByMethod {v : ValueId} (hv : R.value v) {index : ValueSet} (hi : R.set index) :
    Roams L R (Session.indexByMethod ask v index site) R.set :=
  callMember hask hv _ (List.forall_mem_singleton.2 hi) _

theorem indexOf {v : ValueId} (hv : R.value v) {index : ValueSet} (hi : R.set index) :
    Roams L R (Session.indexOf ask v index site) R.set := by
  refine .read fun s hs => ?_
  split
  · next type value hf => exact askExemplar hask (hs.parts hv hf) hi
  · next type elements hf => exact readAt (hs.parts hv hf).2 site
  · next cls hf =>
    exact .bind (indexByMethod hask hv hi) fun _ hm => .read fun _ _ =>
      .ite (instancesOf (hs.parts hv hf)) (.pure hm)
  · exact indexByMethod hask hv hi

theorem getattrAt {a : Arguments} (ha : R.arguments a) :
    Roams L R (Session.getattrAt ask a site) R.set := by
  unfold Session.getattrAt
  split
  · next values names more args =>
    have hvalues : R.set values := ha _ (by rw [args]; exact List.mem_cons_self)
    have start : R.set (more.head?.getD .empty) := by
      cases more with
      | nil => exact Realm.set_empty
      | cons default rest =>
        refine ha _ ?_
        rw [args]
        exact List.mem_cons_of_mem _ (List.mem_cons_of_mem _ List.mem_cons_self)
    refine .bind (joinM fun v hv => joinM fun name _ => .read fun s _ => ?_) fun _ hm =>
      .pure (Realm.set_join start hm)
    split
    · exact hask _ _ (hvalues v hv) trivial
    · exact .pure Realm.set_empty
  · exact .pure Realm.set_empty

theorem nextAt {a : Arguments} (ha : R.arguments a) : Roams L R (Session.nextAt ask a site) R.set := by
  unfold Session.nextAt
  split
  · exact .pure Realm.set_empty
  · next first rest args =>
    have given : ∀ values ∈ first :: rest, R.set values := args ▸ ha
    exact .read fun _ _ => .bind (askAll hask (given _ List.mem_cons_self) trivial) fun _ hm =>
      askAll hask hm (show R.question (.call rest _) from fun values hv =>
        given values (List.mem_cons_of_mem _ hv))

theorem namedInstances (module type : String) :
    Roams L R (Session.namedInstances ask module type site) R.opinion := by
  refine .bind (moduleNamed module) fun found hf => ?_
  cases found with
  | none => exact .pure Realm.opinion_none
  | some m =>
    refine .bind (hask m _ (hf m rfl) trivial) fun members hm => .bind (joinM fun v hv => ?_)
      fun _ hj => .pure (Realm.opinion_some hj)
    refine .bind (instancesOf (hm v hv)) fun _ hi => .pure ?_
    split
    · exact Realm.set_single (Realm.found_some (hm v hv))
    · exact hi

theorem recipeAt {a : Arguments} (ha : R.arguments a) (recipe : Recipe) :
    Roams L R (Session.recipeAt ask a site recipe) R.opinion := by
  have opinion : ∀ {m : Analysis ValueSet}, Roams L R m R.set →
      Roams L R (do return some (← m)) R.opinion :=
    fun h => .bind h fun _ hm => .pure (Realm.opinion_some hm)
  cases recipe with
  | noOpinion => exact .pure Realm.opinion_none
  | argument i => exact .pure (Realm.opinion_some (Realm.arguments_get ha i))
  | allArguments => exact .pure (Realm.opinion_some (Realm.set_unionAll ha 0))
  | constants values => exact opinion (joinM fun _ _ => constantSet _)
  | instanceOf id => exact opinion (knownInstance id)
  | object object =>
    exact .bind (valueOf object) fun _ hf => .pure (Realm.opinion_some (Realm.set_single hf))
  | memberOf i name => exact opinion (askAll hask (Realm.arguments_get ha i) trivial)
  | callOf i =>
    exact opinion (askAll hask (Realm.arguments_get ha i) (show R.question (.call [] []) from List.forall_mem_nil _))

theorem runRecipe (tag : Option String) (recipe : Recipe) {a : Arguments} (ha : R.arguments a)
    (form : RecipeForm) : Roams L R (Session.runRecipe ask tag recipe a site form) R.opinion := by
  cases form with
  | set => exact .bind (recordCall _) fun _ _ => recipeAt hask ha recipe
  | values =>
    refine .bind (recordCall _) fun _ _ => .bind (recipeAt hask ha recipe) fun result hr => .pure ?_
    intro values hv
    obtain ⟨given, rfl, rfl⟩ := Option.map_eq_some_iff.1 hv
    refine Realm.set_ofList fun w hw => ?_
    obtain ⟨v, hv, rfl⟩ := List.mem_map.1 hw
    exact Realm.found_some (hr given rfl v hv)
  | action => exact .bind (recordCall _) fun _ _ => .pure Realm.opinion_none

theorem callWrapped {w : Wrapper} (hw : R.found w.wrapped) {a : Arguments} (ha : R.arguments a) :
    Roams L R (Session.callWrapped ask w a site) R.set := by
  unfold Session.callWrapped
  split
  · exact .pure Realm.set_empty
  · next wrapped h => exact hask _ _ (hw wrapped h) ha

end Asking

section Keeping

include hs

theorem rangeAt : Roams L R (Session.rangeAt site) R.set :=
  siteValue hs <| .bind (knownType _) fun _ ht => .bind (newSequence ht) fun _ hl =>
    .bind (knownInstance _) fun _ hi => .bind (addToSequences _ hi) fun _ _ =>
      .pure (Realm.set_single (Realm.found_some hl))

theorem superAt {a : Arguments} (ha : R.arguments a) : Roams L R (Session.superAt a site) R.set := by
  have rest : ∀ given : SuperArguments, R.set given.classes ∧ R.set given.instances →
      Roams L R (do
        let classes := (← get).userClasses given.classes
        if classes.isEmpty then return .empty
        Session.siteValue site do
          ValueSet.joinM classes fun cls => return .single (← newSuper cls given.instances)) R.set := by
    intro given hg
    refine .read fun _ _ => .ite (.pure Realm.set_empty) (siteValue hs (joinM fun cls hc => ?_))
    refine .bind (newValue _ _ _ rfl rfl ⟨hg.1 cls (List.mem_filter.1 hc).1, hg.2⟩ nofun) fun v hv => ?_
    exact .pure (Realm.set_single (Realm.found_some hv))
  have nothing : R.set .empty ∧ R.set .empty := ⟨Realm.set_empty, Realm.set_empty⟩
  unfold Session.superAt
  split
  · refine .read fun s _ => ?_
    dsimp only
    split
    · exact .bind (implicitSuper site) rest
    · exact .bind (.pure nothing) rest
  · next classes args =>
    exact .bind (.pure ⟨ha _ (by rw [args]; exact List.mem_cons_self), Realm.set_empty⟩) rest
  · next classes instances args =>
    refine .bind (.pure ⟨ha _ (by rw [args]; exact List.mem_cons_self), ha _ ?_⟩) rest
    rw [args]
    exact List.mem_cons_of_mem _ List.mem_cons_self
  · exact .bind (.pure nothing) rest

end Keeping

include hs hask

theorem callSequenceType {cls : ValueId} (hc : R.value cls) {args : List ValueSet}
    (h : ∀ values ∈ args, R.set values) :
    Roams L R (Session.callSequenceType ask cls args site) R.set := by
  refine .bind (siteValue hs (.bind (newSequence (Realm.found_some hc)) fun _ hl =>
    .pure (Realm.set_single (Realm.found_some hl)))) fun made hm => ?_
  cases args with
  | nil => exact .pure hm
  | cons first rest =>
    exact .bind (askAll hask (h first List.mem_cons_self) trivial) fun _ he =>
      .bind (addToSequences _ he) fun _ _ => .pure hm

theorem iterAt {a : Arguments} (ha : R.arguments a) : Roams L R (Session.iterAt ask a site) R.set := by
  unfold Session.iterAt
  split
  · next values args =>
    exact askAll hask (ha values (by rw [args]; exact List.mem_cons_self)) trivial
  · next function sentinel args =>
    have made : Roams L R (Session.siteValue site do
        return .single (← Session.newIterator (← Session.knownType .callableIterator) none)) R.set :=
      siteValue hs (.bind (knownType _) fun _ ht => .bind (newIterator ht nofun) fun _ hi =>
        .pure (Realm.set_single (Realm.found_some hi)))
    exact .bind made fun _ hm =>
      .bind (askAll hask (ha function (by rw [args]; exact List.mem_cons_self))
        (show R.question (.call [] []) from List.forall_mem_nil _)) fun _ he =>
          .bind (addToIterators _ he) fun _ _ => .pure hm
  · exact .pure Realm.set_empty

theorem runOverride {a : Arguments} (ha : R.arguments a) {override : Override}
    (ho : R.override override) :
    Roams L R (Session.runOverride ask a site override) R.opinion := by
  have opinion : ∀ {m : Analysis ValueSet}, Roams L R m R.set →
      Roams L R (do return some (← m)) R.opinion :=
    fun h => .bind h fun _ hm => .pure (Realm.opinion_some hm)
  have none : Roams L R (do return some (← Session.constantSet .none)) R.opinion :=
    opinion (constantSet .none)
  have last : ∀ values, a.sets.getLast? = some values → R.set values :=
    fun values h => ha values (List.mem_of_getLast? h)
  cases override with
  | nothing => exact .pure (Realm.opinion_some Realm.set_empty)
  | firstArgument => exact .pure (Realm.opinion_some (Realm.arguments_get ha 0))
  | transparent => exact .pure Realm.opinion_none
  | unionOfArguments => exact .read fun _ _ => .pure (Realm.opinion_some (Realm.set_unionAll ha _))
  | instanceOf id => exact opinion (knownInstance id)
  | range => exact opinion (rangeAt hs)
  | getattr => exact opinion (getattrAt hask ha)
  | next => exact opinion (nextAt hask ha)
  | iter => exact opinion (iterAt hs hask ha)
  | super => exact opinion (superAt hs ha)
  | loadComponent => exact loadComponentAt ha site
  | append sequence =>
    unfold Session.runOverride
    dsimp only
    split
    · next values h => exact .bind (addToSequences _ (last values h)) fun _ _ => none
    · exact none
  | extend sequence =>
    unfold Session.runOverride
    dsimp only
    split
    · next values h =>
      exact .bind (askAll hask (last values h) trivial) fun _ he =>
        .bind (addToSequences _ he) fun _ _ => none
    · exact none
  | nextElement iterator =>
    refine .read fun s hc => ?_
    split
    · next type elements hf => exact opinion (readAt (hc.parts ho hf).2 site)
    · exact .pure (Realm.opinion_some Realm.set_empty)
  | newInstance =>
    unfold Session.runOverride
    dsimp only
    split
    · exact .pure Realm.opinion_none
    · next classes rest args =>
      have hc : R.set classes := ha classes (by rw [args]; exact List.mem_cons_self)
      exact opinion (joinM fun cls hm => instancesOf (hc cls hm))
  | instanceOfMember module type => exact namedInstances hask module type
  | recipe tag form recipe => exact runRecipe hask tag recipe ha form

theorem callWrapper {w : Wrapper} (hw : R.found w.wrapped ∧ R.source w.source) {a : Arguments}
    (ha : R.arguments a) : Roams L R (Session.callWrapper ask w a site) R.set := by
  refine .read fun s hc => ?_
  split
  · exact callWrapped hask hw.1 ha
  · exact callWrapped hask hw.1 ha
  · next override analyze _ current =>
    have ho : R.override override := override_of_currentSpecialization hc hw.2 current
    refine .bind (count _ _) fun _ _ => .bind (runOverride hs hask ha ho) fun _ hr => ?_
    exact .ite (.bind (callWrapped hask hw.1 ha) fun _ hg => .pure (Realm.opinion_getD hr hg))
      (.pure (Realm.opinion_getD hr Realm.set_empty))

theorem callOf {v : ValueId} (hv : R.value v) {args : List ValueSet}
    (h : ∀ values ∈ args, R.set values) (names : List String) :
    Roams L R (Session.callOf ask v args names site) R.set := by
  refine .read fun s hc => ?_
  cases hf : s.form v <;> have parts := hc.parts hv hf <;> dsimp only
  case builtinClass type =>
    exact .read fun _ _ => .ite (callSequenceType hs hask hv h) (instancesOf hv)
  case builtinInstance cls => exact callMember hask hv _ h _
  case userInstance cls attributes => exact callMember hask hv _ h _
  case builtinFunction object => exact returnedInstances _
  case builtinMethod object => exact .read fun _ _ => returnedInstances _
  case constant type value =>
    exact askExemplar hask parts (show R.question (.call args names) from h)
  case multiple members => exact joinM fun member hm => hask member _ (parts member hm) h
  case userClass c => exact callClass hask hv h names
  case function f => exact callFunction hv parts h _ _
  case boundMethod function self =>
    refine hask function _ parts.1 fun values hm => ?_
    rcases List.mem_cons.1 hm with rfl | hm
    · exact Realm.set_single (Realm.found_some parts.2)
    · exact h values hm
  case wrapper w => exact callWrapper hs hask parts h
  all_goals exact .pure Realm.set_empty

theorem respond : Answers L R (Session.respond ask) site := by
  intro v q hv hq
  cases q with
  | member name => exact memberOf hask hv name
  | call args names => exact callOf hs hask hv hq names
  | iterator => exact iteratorOf hask hv
  | elements => exact elementsOf hask hv
  | index i => exact indexOf hask hv hq

end Rules

theorem answerWithin (depth : Nat) (hs : L.keep site.node.id) :
    Answers L R (Session.answerWithin depth) site := by
  induction depth with
  | zero => exact fun _ _ _ _ => throw _
  | succ depth ih => exact respond hs ih

theorem answer (hs : L.keep site.node.id) : Answers L R Session.answer site :=
  answerWithin questionDepth hs

end Roams

end Typeflow.Session
