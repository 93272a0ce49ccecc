import Typeflow.Proofs.Roam.Modules
import Typeflow.Session.Members

/-! Reading and assigning the members of values stays within a realm. -/
namespace Typeflow.Session

/-- The parts of a value that was read belong to the realm. -/
theorem Realm.Closed.parts {R : Realm} {s : Session} (hs : R.Closed s) {v : ValueId} (hv : R.value v)
    {form : Form} (h : s.form v = form) : R.form form :=
  h ▸ hs.form v hv

namespace Roams

open Within

variable {L : Licence} {R : Realm} {ask : Ask} {site : Site}

theorem nodeValueAnd {α : Type} (scope : ScopeId) {node : NodeId} {make : Analysis (ValueSet × α)}
    (hn : L.keep node) (h : Roams L R make fun made => R.set made.1) :
    Roams L R (Session.nodeValueAnd scope node make) fun found => R.set found.1 := by
  have keeping : ∀ {values : ValueSet}, R.set values →
      Roams L R (setNodeValue scope node values) fun _ => True := fun hv =>
    of_step (fun _ => .keepValue _ _ _ hn) (.setNodeValue scope node hv)
  refine .read fun s hs => ?_
  cases hl : (s.scope scope).nodeValues.lookup node with
  | some found => exact .pure (hs.nodes _ _ _ hl)
  | none =>
    exact .bind (keeping Realm.set_empty) fun _ _ => .bind h fun made hm =>
      .bind (keeping hm) fun _ _ => .pure hm

theorem siteValue {make : Analysis ValueSet} (hs : L.keep site.node.id) (h : Roams L R make R.set) :
    Roams L R (Session.siteValue site make) R.set :=
  .read fun _ _ => .bind (nodeValueAnd _ hs (.bind h fun _ hv => .pure hv)) fun _ hv => .pure hv

theorem readAt {x : VarId} (hx : R.record x) (site : Site) :
    Roams L R (Session.readAt x site) R.set :=
  .bind (addReader x site.unit) fun _ _ => .read fun _ hs => .pure (hs.types x hx)

theorem attributeOf {v : ValueId} (hv : R.value v) (name : String) :
    Roams L R (Session.attributeOf v name) fun found => ∀ x, found = some x → R.record x :=
  of_step (fun _ => .attributeOf v name) (.attributeOf hv name)

theorem memberRecord {v : ValueId} (hv : R.value v) (name : String) :
    Roams L R (Session.memberRecord v name) fun found => ∀ x, found = some x → R.record x := by
  have named : ∀ scope, Roams L R (do return some (← Session.nameIn scope name))
      fun found => ∀ x, found = some x → R.record x :=
    fun scope => .bind (nameIn _ _) fun x hx => .pure fun y hy => by cases hy; exact hx
  refine .read fun s _ => ?_
  split
  · exact named _
  · exact named _
  · exact attributeOf hv name
  · exact .pure nofun

theorem setMember {v : ValueId} (hv : R.value v) (name : String) {values : ValueSet}
    (h : R.set values) (site : Site) : Roams L R (Session.setMember v name values site) fun _ => True := by
  refine .bind (memberRecord hv name) fun found _ => ?_
  cases found with
  | none => exact .pure trivial
  | some x => exact .read fun _ _ => bindAt _ _ h

theorem setIndex (v : ValueId) {values : ValueSet} (h : R.set values) :
    Roams L R (Session.setIndex v values) fun _ => True := by
  refine .read fun s _ => ?_
  split
  · exact .bind (addTypes h) fun _ _ => .pure trivial
  · exact .pure trivial

theorem newSequence_run (type : Found) (s : Session) : ∃ name,
    Session.newSequence type s = .ok s.nextValue
      ({ s with records := s.records.push { cap := s.options.limits.variableTypes } }.withValue
        ⟨name, name, .instance_, .sequence type ⟨s.records.size⟩, {}, []⟩) := by
  cases type with
  | none => exact ⟨_, rfl⟩
  | some cls => exact ⟨_, rfl⟩

theorem newSequence {type : Found} (ht : R.found type) :
    Roams L R (Session.newSequence type) R.value :=
  .bind (classNameOr _ _) fun _ _ => .read fun _ _ => .bind (newVariable _) fun _ hx =>
    newValue _ _ _ rfl rfl ⟨ht, hx⟩ nofun

theorem newIterator {type : Found} (ht : R.found type) {elements : Option VarId}
    (he : ∀ x, elements = some x → R.record x) : Roams L R (Session.newIterator type elements) R.value := by
  refine .bind (classNameOr _ _) fun _ _ => ?_
  cases elements with
  | some shared => exact .bind (.pure (he shared rfl)) fun _ hx => newValue _ _ _ rfl rfl ⟨ht, hx⟩ nofun
  | none => exact .read fun _ _ => .bind (newVariable _) fun _ hx => newValue _ _ _ rfl rfl ⟨ht, hx⟩ nofun

theorem addToSequences (values : ValueSet) {elements : ValueSet} (h : R.set elements) :
    Roams L R (Session.addToSequences values elements) fun _ => True := by
  refine .forM fun v _ => .read fun s _ => ?_
  split
  · exact .bind (addTypes h) fun _ _ => .pure trivial
  · exact .pure trivial

theorem addToIterators (values : ValueSet) {elements : ValueSet} (h : R.set elements) :
    Roams L R (Session.addToIterators values elements) fun _ => True := by
  refine .forM fun v _ => .read fun s _ => ?_
  split
  · exact .bind (addTypes h) fun _ _ => .pure trivial
  · exact .pure trivial

theorem newWrapper {wrapped : Found} (hw : R.found wrapped) (qualified : String)
    {source : WrapperSource} (hs : R.source source) :
    Roams L R (Session.newWrapper wrapped qualified source) R.value := by
  refine .read fun s _ => ?_
  dsimp only
  split <;> exact newValue _ _ _ rfl rfl ⟨hw, hs⟩ nofun

theorem propertyValue (object : ObjectId) : Roams L R (Session.propertyValue object) R.set :=
  fun _ hs => instancesOfType hs fun _ known => .of_typeOf known

theorem exemplarOf {type : Found} (ht : R.found type) : Roams L R (Session.exemplarOf type) R.found := by
  cases type with
  | none => exact .pure Realm.found_none
  | some cls => exact builtinInstance (ht cls rfl)

/-- A value that is kept in a slot, as a set. -/
theorem keptSet {v : ValueId} (hv : R.value v) {slot : Slot} (own : slot ≠ .instance_)
    (unwrapped : slot ≠ .wrapper) (plain : slot ≠ .rest) {make : Analysis ValueId} (h : Roams L R make R.value) :
    Roams L R (do return .single (some (← Session.keptOr v slot make))) R.set :=
  .bind (keptOr hv own unwrapped plain h) fun _ hm => .pure (Realm.set_single (Realm.found_some hm))

theorem memberWrapper {v : ValueId} (hv : R.value v) (name qualified : String) {wrapped : Found}
    (hw : R.found wrapped) (table : ValueId) :
    Roams L R (Session.memberWrapper v name qualified wrapped table) R.set :=
  keptSet hv (by nofun) (by nofun) (by nofun) (newWrapper hw _ (show R.source (.table table) from trivial))

theorem typeMember {cls : ValueId} (hc : R.value cls) (type : ObjectId) (name : String) :
    Roams L R (Session.typeMember cls type name) R.set := by
  refine .read fun s _ => ?_
  split
  · exact .pure Realm.set_empty
  · refine .bind (valueOf _) fun found hf => .read fun s _ => ?_
    split
    · exact .pure (Realm.set_single hf)
    · exact .ite (memberWrapper hc _ _ hf _) (.pure (Realm.set_single hf))

/-- What several alternatives are taken together as, wrapped up. -/
theorem wrapAll {values : ValueSet} (hv : R.set values) (qualified : String) {override : Override}
    (ho : R.override override) :
    Roams L R (do
      let wrapped ← Session.aggregate (values.items.map some)
      Session.newWrapper wrapped qualified (.fixed ⟨override, false⟩)) R.value := by
  refine .bind (aggregate fun v hm => ?_) fun wrapped hw => newWrapper hw _ ho
  obtain ⟨w, hw, rfl⟩ := List.mem_map.1 hm
  exact Realm.found_some (hv w hw)

theorem rootConstructor {cls : ValueId} (hc : R.value cls) (type : ObjectId) :
    Roams L R (Session.rootConstructor cls type) R.set :=
  keptSet hc (by nofun) (by nofun) (by nofun) <| .bind (typeMember hc _ _) fun _ hf =>
    wrapAll hf _ (show R.override .newInstance from trivial)

theorem builtinClassMember {cls : ValueId} (hc : R.value cls) (type : ObjectId) (name : String) :
    Roams L R (Session.builtinClassMember cls type name) R.set :=
  .read fun _ _ => .ite (rootConstructor hc _) (typeMember hc _ _)

theorem moduleMember {m : ValueId} (hm : R.value m) (object : ObjectId) (name : String) :
    Roams L R (Session.moduleMember m object name) R.set := by
  refine .read fun s _ => ?_
  split
  · exact .pure Realm.set_empty
  · exact .bind (valueOf _) fun _ hf => .read fun _ _ =>
      .ite (memberWrapper hm _ _ hf _) (.pure (Realm.set_single hf))

theorem throughProperty {v : ValueId} (hv : R.value v) :
    Roams L R (Session.throughProperty v) R.set := by
  refine .read fun s _ => ?_
  split
  · exact propertyValue _
  · exact .pure (Realm.set_single (Realm.found_some hv))

theorem throughInstance {self v : ValueId} (hs : R.value self) (hv : R.value v) :
    Roams L R (Session.throughInstance self v) R.set :=
  .read fun _ _ => .ite (.bind (boundMethod hv hs) fun _ hf => .pure (Realm.set_single hf))
    (throughProperty hv)

theorem override_mutatorOf {v : ValueId} (hv : R.value v) {name : String} {override : Override}
    (h : mutatorOf v name = some override) : R.override override := by
  simp only [mutatorOf] at h
  split at h
  · cases h
    exact hv
  · split at h
    · cases h
      exact hv
    · cases h

theorem sequenceMutator {v : ValueId} (hv : R.value v) (name : String) {override : Override}
    (ho : R.override override) {generic : ValueSet} (hg : R.set generic) :
    Roams L R (Session.sequenceMutator v name override generic) R.set :=
  keptSet hv (by nofun) (by nofun) (by nofun) (wrapAll hg _ ho)

theorem setResolving (cls : ValueId) (on : Bool) :
    Roams L R (Session.setResolving cls on) fun _ => True :=
  of_step (fun _ => .resolve cls on) (.setResolving cls on)

theorem whileResolving {α : Type} {Q : α → Prop} (cls : ValueId) {search : Analysis α}
    (h : Roams L R search Q) : Roams L R (Session.whileResolving cls search) Q :=
  .bind (setResolving cls true) fun _ _ => cleanup h (setResolving cls false)

def Answers (L : Licence) (R : Realm) (ask : Ask) (site : Site) : Prop :=
  ∀ v q, R.value v → R.question q → Roams L R (ask v q site) R.set

section Rules

variable (hask : Answers L R ask site)
include hask

theorem askAll {values : ValueSet} (hv : R.set values) {q : Question} (hq : R.question q) :
    Roams L R (ask.all values q site) R.set :=
  all hv fun v h => hask v q h hq

theorem exemplarMember {type : Found} (ht : R.found type) (name : String) :
    Roams L R (Session.exemplarMember ask type name site) R.set := by
  refine .bind (exemplarOf ht) fun found hf => ?_
  cases found with
  | none => exact .pure Realm.set_empty
  | some v => exact hask v _ (hf v rfl) trivial

theorem sequenceMember {v : ValueId} (hv : R.value v) {type : Found} (ht : R.found type)
    (name : String) : Roams L R (Session.sequenceMember ask v type name site) R.set := by
  refine .bind (exemplarMember hask ht name) fun generic hg => ?_
  split
  · next override ho =>
    exact .read fun _ _ => .ite (sequenceMutator hv _ (override_mutatorOf hv ho) hg) (.pure hg)
  · exact .pure hg

theorem iteratorMember {v : ValueId} (hv : R.value v) {type : Found} (ht : R.found type)
    (name : String) : Roams L R (Session.iteratorMember ask v type name site) R.set :=
  .bind (exemplarMember hask ht name) fun _ hg => .read fun _ _ => .ite (.pure hg) <|
    keptSet hv (by nofun) (by nofun) (by nofun) (wrapAll hg _ (show R.override (.nextElement v) from hv))

theorem userClassMember {cls : ValueId} {c : UserClass} (hb : R.record c.bases) (name : String) :
    Roams L R (Session.userClassMember ask cls c name site) R.set :=
  .bind (nameIn _ _) fun _ hx => .bind (readAt hx site) fun _ hown => .ite (.pure hown) <|
    .bind (readAt hb site) fun _ hbases => .read fun _ _ => .ite (.pure Realm.set_empty) <|
      whileResolving cls (askAll hask hbases trivial)

theorem userInstanceMember {v cls : ValueId} (hv : R.value v) (hc : R.value cls) (name : String) :
    Roams L R (Session.userInstanceMember ask v cls name site) R.set := by
  have rest : ∀ own : ValueSet, R.set own → Roams L R (do
      let fromClass ← ask cls (.member name) site
      return own.join (← ValueSet.joinM fromClass.items (Session.throughInstance v))) R.set := by
    intro own hown
    exact .bind (hask cls _ hc trivial) fun _ hf =>
      .bind (joinM fun w hw => throughInstance hv (hf w hw)) fun _ hm => .pure (Realm.set_join hown hm)
  refine .bind (attributeOf hv name) fun found hf => ?_
  cases found with
  | some x => exact .bind (readAt (hf x rfl) site) rest
  | none => exact .bind (.pure Realm.set_empty) rest

end Rules

theorem throughSuper {instances : ValueSet} (hi : R.set instances) {v : ValueId} (hv : R.value v) :
    Roams L R (Session.throughSuper instances v) R.set :=
  .read fun _ _ => .ite (.pure (Realm.set_single (Realm.found_some hv))) <|
    joinM fun self hself => .bind (boundMethod hv (hi self hself)) fun _ hf => .pure (Realm.set_single hf)

theorem projectMember {m : ValueId} (hm : R.value m) (p : ProjectModule) (name : String) (site : Site) :
    Roams L R (Session.projectMember m p name site) R.set :=
  .bind (nameIn _ _) fun x hx => .bind (addReader _ _) fun _ _ => .read fun _ hs =>
    .ite (.pure (hs.types x hx)) (.bind (childModule hm name) fun _ hf => .pure (Realm.set_single hf))

section Rules

variable (hask : Answers L R ask site)
include hask

theorem superMember {cls : ValueId} (hc : R.value cls) {instances : ValueSet} (hi : R.set instances)
    (name : String) : Roams L R (Session.superMember ask cls instances name site) R.set := by
  refine .read fun s hs => ?_
  split
  · next c hf =>
    exact .bind (readAt (hs.parts hc hf) site) fun _ hb => joinM fun base hbase =>
      .bind (hask base _ (hb base hbase) trivial) fun _ hm => joinM fun w hw => throughSuper hi (hm w hw)
  · exact .pure Realm.set_empty

theorem memberOf {v : ValueId} (hv : R.value v) (name : String) :
    Roams L R (Session.memberOf ask v name site) R.set := by
  refine .read fun s hs => ?_
  cases hf : s.form v <;> have parts := hs.parts hv hf <;> dsimp only
  case builtinClass type => exact builtinClassMember hv _ _
  case builtinInstance cls =>
    exact .bind (hask _ _ parts trivial) fun _ hm => joinM fun w hw => throughProperty (hm w hw)
  case builtinModule object =>
    exact .bind (moduleMember hv _ _) fun _ hm =>
      .ite (.bind (childModule hv name) fun _ hc => .pure (Realm.set_single hc)) (.pure hm)
  case constant type value => exact exemplarMember hask parts _
  case reflected object =>
    refine .read fun t _ => ?_
    split
    · exact .pure Realm.set_empty
    · exact .bind (valueOf _) fun _ hm => .pure (Realm.set_single hm)
  case multiple members => exact joinM fun w hw => hask w _ (parts w hw) trivial
  case module p => exact projectMember hv _ _ _
  case userClass c => exact userClassMember hask parts _
  case userInstance cls attributes => exact userInstanceMember hask hv parts.1 _
  case function f =>
    split
    · exact .read fun _ _ => constantSet _
    · exact .pure Realm.set_empty
  case sequence type elements => exact sequenceMember hask hv parts.1 _
  case iterator type elements => exact iteratorMember hask hv parts.1 _
  case «super» cls instances => exact superMember hask parts.1 parts.2 _
  case wrapper w =>
    split
    · exact .pure Realm.set_empty
    · next wrapped hw => exact hask _ _ (parts.1 _ hw) trivial
  all_goals exact .pure Realm.set_empty

end Rules

theorem allMembersWithin (depth : Nat) {v : ValueId} (hv : R.value v) :
    Roams L R (Session.allMembersWithin depth v) fun _ => True := by
  induction depth generalizing v with
  | zero => exact throw _
  | succ depth ih =>
    refine .read fun s hs => ?_
    dsimp only
    split
    · exact objectMembers _
    · next cls hf => exact ih (hs.parts hv hf)
    · exact .read fun _ _ => .bind (.mapM (P := fun _ => True) fun _ _ => .bind (moduleMember hv _ _)
        fun _ _ => .pure trivial)
        fun _ _ => .pure trivial
    · exact objectMembers _
    · next members hf =>
      exact .bind (.mapM fun other ho => ih (hs.parts hv hf other ho)) fun _ _ => .pure trivial
    · exact .read fun _ _ => .pure trivial
    · next c hf =>
      refine .read fun t _ => ?_
      split
      · exact .bind (Q := fun _ => True) (.pure trivial) fun _ _ => .read fun _ _ => .read fun _ _ =>
          .pure trivial
      · refine .read fun r hr => .bind (whileResolving v (.mapM fun w hw => ih ?_))
          fun _ _ => .read fun _ _ => .read fun _ _ => .pure trivial
        exact hr.types _ (hs.parts hv hf) w hw
    · next cls attributes hf =>
      refine .bind (ih (hs.parts hv hf).1) fun _ _ => .read fun t _ => ?_
      split
      · exact .read fun _ _ => .pure trivial
      · exact .pure trivial
    · next other elements hf => exact ih ((hs.parts hv hf).1 _ rfl)
    · next other qualified source hf => exact ih ((hs.parts hv hf).1 _ rfl)
    · exact .pure trivial

theorem allMembers {v : ValueId} (hv : R.value v) :
    Roams L R (Session.allMembers v) fun _ => True :=
  .read fun _ _ => allMembersWithin _ hv

end Roams

end Typeflow.Session
