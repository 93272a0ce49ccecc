import Typeflow.Proofs.Dispatch.Direct

/-! What a question that is no lookup of a member comes down to: further questions, one after the other. -/
namespace Typeflow.Session

/-- What is wanted of a value: the answer to a question, or what it yields next. -/
inductive Want
  | answer (q : Question)
  | next

/-- The values of which something is asked: they are known, or another question finds them. -/
inductive Source
  | these (values : List ValueId)
  | found (v : ValueId) (q : Question)

/-- What something wanted comes down to: from some session on, the same is wanted of one value after the other. -/
structure Plan where
  start : Session
  source : Source
  want : Want

namespace Plan

/-- Nothing more is asked. -/
def rest (s : Session) : Plan := ⟨s, .these [], .next⟩

/-- A method is looked up and called. -/
def method (s : Session) (v : ValueId) (name : String) (args : List ValueSet) (names : List String) : Plan :=
  ⟨s, .found v (.member name), .answer (.call args names)⟩

/-- The question is passed on to the instance of a type. -/
def exemplar? (s : Session) (type : Found) (q : Question) : Option Plan :=
  match exemplarOf type s with
  | .ok found t => some ⟨t, .these found.toList, .answer q⟩
  | .error _ _ => none

end Plan

/-- The sequence that a call of a list or tuple type yields. -/
def sequenceAt (cls : ValueId) (site : Site) : Analysis ValueSet :=
  siteValue site do return .single (← newSequence (some cls))

def sequencePlan (s : Session) (site : Site) (cls : ValueId) : List ValueSet → Plan
  | [] => .rest s
  | first :: _ => ⟨after (sequenceAt cls site) s, .these first.items, .answer .elements⟩

def classPlan? (s : Session) (v : ValueId) (args : List ValueSet) (names : List String) : Option Plan :=
  match userInstance v s with
  | .ok (some self) t => some (.method t self "__init__" args names)
  | _ => none

/-- A replacement that asks nothing. -/
def runSilently (a : Arguments) (site : Site) (override : Override) : Analysis (Option ValueSet) := do
  count "specialized_calls" 1
  runOverride (fun _ _ _ => throw .endless) a site override

/-- A replacement that asks questions itself has no plan. -/
def wrapperPlan? (s : Session) (site : Site) (w : Wrapper) (args : List ValueSet) (names : List String) : Option Plan :=
  match s.currentSpecialization w with
  | none | some ⟨.transparent, _⟩ => some ⟨s, .these w.wrapped.toList, .answer (.call args names)⟩
  | some ⟨override, analyze⟩ =>
    if override.asksNothing then
      some ⟨after (runSilently ⟨args, names⟩ site override) s, .these (if analyze then w.wrapped.toList else []),
        .answer (.call args names)⟩
    else none

def callPlan? (s : Session) (site : Site) (v : ValueId) (args : List ValueSet) (names : List String) : Option Plan :=
  match s.form v with
  | .builtinClass type =>
    some (if s.host.typeId type = .list || s.host.typeId type = .tuple then s.sequencePlan site v args else .rest s)
  | .builtinInstance _ | .userInstance .. => some (.method s v "__call__" args names)
  | .constant type _ => Plan.exemplar? s type (.call args names)
  | .multiple members => some ⟨s, .these members, .answer (.call args names)⟩
  | .userClass _ => s.classPlan? v args names
  | .boundMethod function self =>
    some ⟨s, .these [function], .answer (.call (.single (some self) :: args) (methodNames args names))⟩
  | .wrapper w => s.wrapperPlan? site w args names
  | _ => some (.rest s)

def iteratorPlan? (s : Session) (v : ValueId) : Option Plan :=
  match s.form v with
  | .constant type _ => Plan.exemplar? s type .iterator
  | .sequence .. | .iterator .. => some (.rest s)
  | _ => some (.method s v "__iter__" [] [])

def elementsPlan? (s : Session) (v : ValueId) : Option Plan :=
  match s.form v with
  | .constant type _ => Plan.exemplar? s type .elements
  | .sequence .. | .iterator .. => some (.rest s)
  | _ => some ⟨s, .found v .iterator, .next⟩

def indexPlan? (s : Session) (v : ValueId) (i : ValueSet) : Option Plan :=
  match s.form v with
  | .constant type _ => Plan.exemplar? s type (.index i)
  | .sequence .. => some (.rest s)
  | _ => some (.method s v "__getitem__" [i] [""])

def nextPlan (s : Session) (v : ValueId) : Plan :=
  if (s.value v).kind = .iterator then ⟨s, .these [v], .answer .elements⟩ else .method s v s.nextMethod [] []

/-- What something wanted comes down to, unless it is the lookup of a member. -/
def plan? (s : Session) (site : Site) (v : ValueId) : Want → Option Plan
  | .answer (.member _) => none
  | .answer (.call args names) => s.callPlan? site v args names
  | .answer .iterator => s.iteratorPlan? v
  | .answer .elements => s.elementsPlan? v
  | .answer (.index i) => s.indexPlan? v i
  | .next => some (s.nextPlan v)

/-- Gives what is wanted when questions lead to further ones no deeper than `depth`. -/
def meet (depth : Nat) (site : Site) (want : Want) (v : ValueId) : Analysis ValueSet :=
  match want with
  | .answer q => answerWithin depth v q site
  | .next => nextOf (answerWithin depth) v site

/-- The values of a source, which may have to be found first. -/
def Source.values (depth : Nat) (site : Site) : Source → Analysis (List ValueId)
  | .these values => return values
  | .found v q => return (← answerWithin depth v q site).items

def Plan.carryOut (depth : Nat) (site : Site) (plan : Plan) : Analysis ValueSet := do
  ValueSet.joinM (← plan.source.values depth site) (meet depth site plan.want)

section Plans

variable {depth : Nat} {s t : Session} {v w : ValueId} {q : Question} {site : Site} {plan : Plan} {want : Want}
  {args : List ValueSet} {names : List String}

theorem carryOut_these (values : List ValueId) :
    Plan.carryOut depth site ⟨s, .these values, want⟩ = ValueSet.joinM values (meet depth site want) := rfl

theorem carryOut_found : Plan.carryOut depth site ⟨s, .found v q, want⟩ =
    (do ValueSet.joinM (← answerWithin depth v q site).items (meet depth site want)) := by
  simp only [Plan.carryOut, Source.values, bind_assoc, pure_bind]

private theorem callMember_eq (s : Session) (v : ValueId) (name : String) (args : List ValueSet) (names : List String) :
    (answerWithin depth).callMember v name args names site =
      Plan.carryOut depth site (.method s v name args names) := by
  rw [Plan.method, carryOut_found]
  rfl

private theorem returns_method (name : String) (args : List ValueSet) (names : List String) :
    Returns ((answerWithin depth).callMember v name args names site) s ↔
      Returns (Plan.carryOut depth site (.method s v name args names)) s := by
  rw [callMember_eq s]

private theorem returns_exemplar {type : Found} (planned : Plan.exemplar? s type q = some plan) :
    Returns (askExemplar (answerWithin depth) type q site) s ↔ Returns (plan.carryOut depth site) plan.start := by
  unfold Plan.exemplar? at planned
  split at planned
  · next found t made =>
    cases planned
    rw [askExemplar, returns_bind_of_ok made, carryOut_these]
    cases found with
    | none => exact iff_of_true ⟨t, .empty, rfl⟩ returns_joinM_nil
    | some w => exact returns_joinM_single.symm
  · cases planned

private theorem total_sequenceAt (cls : ValueId) (site : Site) : Total (sequenceAt cls site) :=
  total_siteValue (.bind (total_newSequence _) fun _ => .pure _) site

/-- What leads to nothing comes to an end. -/
private theorem returns_settled {α : Type} {m : Analysis α} (total : Total m) :
    Returns m s ↔ Returns (Plan.carryOut depth site (.rest s)) s :=
  iff_of_true (returns_of_total total s) ⟨s, .empty, rfl⟩

private theorem returns_sequenceType (cls : ValueId) (args : List ValueSet) :
    Returns (callSequenceType (answerWithin depth) cls args site) s ↔
      Returns ((s.sequencePlan site cls args).carryOut depth site) (s.sequencePlan site cls args).start := by
  obtain ⟨made, run⟩ := total_sequenceAt cls site s
  cases args with
  | nil => exact returns_settled (.bind (total_sequenceAt cls site) fun _ => .pure _)
  | cons first rest =>
    have rule := returns_bind_of_ok (f := fun made => do
      addToSequences made (← (answerWithin depth).all first .elements site)
      return made) run
    exact rule.trans (returns_bind_total fun _ => .bind (total_addToSequences _ _) fun _ => .pure _)

private theorem returns_callClass (planned : s.classPlan? v args names = some plan) :
    Returns (callClass (answerWithin depth) v args names site) s ↔ Returns (plan.carryOut depth site) plan.start := by
  unfold classPlan? at planned
  split at planned
  · next self t made =>
    cases planned
    rw [callClass, returns_bind_of_ok made]
    dsimp only
    rw [returns_bind_total fun _ => .pure _, callMember_eq t]
    rfl
  · cases planned

private theorem returns_wrapped (w : Wrapper) (t : Session) :
    Returns (callWrapped (answerWithin depth) w ⟨args, names⟩ site) t ↔
      Returns (ValueSet.joinM w.wrapped.toList (meet depth site (.answer (.call args names)))) t := by
  rw [callWrapped]
  cases w.wrapped with
  | none => exact iff_of_true ⟨t, .empty, rfl⟩ returns_joinM_nil
  | some v => exact returns_joinM_single.symm

/-- The function behind a replacement runs too if that is asked for. -/
private theorem returns_replaced {w : Wrapper} {analyze : Bool} {result : Option ValueSet} :
    Returns (do
      if analyze && w.wrapped.isSome then
        let generic ← callWrapped (answerWithin depth) w ⟨args, names⟩ site
        return result.getD generic
      return result.getD .empty) t ↔
      Returns (ValueSet.joinM (if analyze then w.wrapped.toList else []) (meet depth site (.answer (.call args names)))) t := by
  cases analyze with
  | false => exact iff_of_true ⟨t, _, rfl⟩ returns_joinM_nil
  | true =>
    cases hw : w.wrapped with
    | none => exact iff_of_true ⟨t, _, rfl⟩ returns_joinM_nil
    | some v =>
      have rule : Returns (callWrapped (answerWithin depth) w ⟨args, names⟩ site) t ↔ _ := returns_wrapped w t
      rw [hw] at rule
      exact (returns_bind_total fun _ => .pure _).trans rule

private theorem callWrapper_silent {w : Wrapper} {override : Override} {analyze : Bool} (silent : override.asksNothing = true)
    (current : s.currentSpecialization w = some ⟨override, analyze⟩) (ask : Ask) (a : Arguments) (site : Site) :
    callWrapper ask w a site s = (do
      count "specialized_calls" 1
      let result ← runOverride ask a site override
      if analyze && w.wrapped.isSome then
        let generic ← callWrapped ask w a site
        return result.getD generic
      return result.getD .empty : Analysis ValueSet) s := by
  rw [callWrapper, read_run, current]
  cases override <;> first | rfl | cases silent

private theorem returns_wrapper {w : Wrapper} (planned : s.wrapperPlan? site w args names = some plan) :
    Returns (callWrapper (answerWithin depth) w ⟨args, names⟩ site) s ↔
      Returns (plan.carryOut depth site) plan.start := by
  unfold wrapperPlan? at planned
  split at planned
  · next none =>
    cases planned
    rw [callWrapper, returns_read, none]
    exact returns_wrapped w s
  · next analyze transparent =>
    cases planned
    rw [callWrapper, returns_read, transparent]
    exact returns_wrapped w s
  · next override analyze other current =>
    split at planned
    · next silent =>
      cases planned
      let counted := after (count "specialized_calls" 1) s
      obtain ⟨result, run⟩ := total_runOverride silent (answerWithin depth) ⟨args, names⟩ site counted
      have ends : after (runSilently ⟨args, names⟩ site override) s =
          after (runOverride (answerWithin depth) ⟨args, names⟩ site override) counted := by
        rw [runOverride_eq silent (answerWithin depth)]
        exact after_bind_of_ok rfl
      have rule := callWrapper_silent silent current (answerWithin depth) ⟨args, names⟩ site
      rw [bind_of_ok (show count "specialized_calls" 1 s = .ok () counted from rfl), bind_of_ok run] at rule
      rw [ends]
      simp only [Returns, Leaves, rule]
      exact returns_replaced
    · cases planned

private theorem returns_call (planned : s.callPlan? site v args names = some plan) :
    Returns (callOf (answerWithin depth) v args names site) s ↔ Returns (plan.carryOut depth site) plan.start := by
  rw [callOf, returns_read]
  unfold callPlan? at planned
  cases hv : s.form v <;> rw [hv] at planned <;> dsimp only at planned ⊢
  case constant type value => exact returns_exemplar planned
  case userClass c => exact returns_callClass planned
  case wrapper w => exact returns_wrapper planned
  all_goals cases planned
  case builtinClass type =>
    rw [returns_read]
    split
    · exact returns_sequenceType v args
    · exact returns_settled (total_instancesOf v)
  case builtinInstance | userInstance => exact returns_method "__call__" args names
  case builtinFunction object => exact returns_settled (total_returnedInstances (some object))
  case builtinMethod object => exact returns_settled (.read fun _ => total_returnedInstances _)
  case multiple members => rfl
  case function f => exact returns_settled (total_callFunction v f args names site)
  case boundMethod function self => exact returns_joinM_single.symm
  all_goals exact returns_settled (.pure _)

private theorem returns_iterator (planned : s.iteratorPlan? v = some plan) :
    Returns (iteratorOf (answerWithin depth) v site) s ↔ Returns (plan.carryOut depth site) plan.start := by
  rw [iteratorOf, returns_read]
  unfold iteratorPlan? at planned
  cases hv : s.form v <;> rw [hv] at planned <;> dsimp only at planned ⊢
  case constant type value => exact returns_exemplar planned
  all_goals cases planned
  case sequence type elements => exact returns_settled (total_sequenceIterator v elements)
  case iterator => exact returns_settled (.pure _)
  all_goals exact returns_method "__iter__" [] []

private theorem returns_index {i : ValueSet} (planned : s.indexPlan? v i = some plan) :
    Returns (indexOf (answerWithin depth) v i site) s ↔ Returns (plan.carryOut depth site) plan.start := by
  rw [indexOf, returns_read]
  unfold indexPlan? at planned
  cases hv : s.form v <;> rw [hv] at planned <;> dsimp only at planned ⊢
  case constant type value => exact returns_exemplar planned
  all_goals cases planned
  case sequence type elements => exact returns_settled (total_readAt elements site)
  case builtinInstance cls =>
    rw [returns_bind_total fun _ => .read fun _ => .ite (total_instancesOf cls) (.pure _)]
    exact returns_method "__getitem__" [i] [""]
  all_goals exact returns_method "__getitem__" [i] [""]

private theorem returns_elements (planned : s.elementsPlan? v = some plan) :
    Returns (elementsOf (answerWithin depth) v site) s ↔ Returns (plan.carryOut depth site) plan.start := by
  have iterated : elementsByMethod (answerWithin depth) v site = Plan.carryOut depth site ⟨s, .found v .iterator, .next⟩ := by
    rw [carryOut_found]
    rfl
  rw [elementsOf, returns_read]
  unfold elementsPlan? at planned
  cases hv : s.form v <;> rw [hv] at planned <;> dsimp only at planned ⊢
  case constant type value => exact returns_exemplar planned
  all_goals cases planned
  case sequence type elements | iterator type elements => exact returns_settled (total_readAt elements site)
  case builtinInstance cls =>
    rw [returns_bind_total fun _ => .read fun _ => .ite (total_textElements cls) (.pure _), iterated]
  all_goals rw [iterated]

/-- A question comes to an end just if what it comes down to does, one step less deep. -/
theorem returns_answer_iff (planned : s.plan? site v (.answer q) = some plan) :
    Returns (answerWithin (depth + 1) v q site) s ↔ Returns (plan.carryOut depth site) plan.start := by
  cases q with
  | member => cases planned
  | call => exact returns_call planned
  | iterator => exact returns_iterator planned
  | elements => exact returns_elements planned
  | index => exact returns_index planned

theorem returns_next_iff : Returns (meet depth site .next v) s ↔
    Returns ((s.nextPlan v).carryOut depth site) (s.nextPlan v).start := by
  rw [meet, nextOf, returns_read, nextPlan]
  split
  · exact returns_joinM_single.symm
  · exact returns_method s.nextMethod [] []

end Plans

/-- A call of a class leads to its initializer. -/
theorem plan?_of_class {s t : Session} {v self : ValueId} (made : userInstance v s = .ok (some self) t) (site : Site)
    (args : List ValueSet) (names : List String) :
    s.plan? site v (.answer (.call args names)) = some (.method t self "__init__" args names) := by
  show s.callPlan? site v args names = _
  unfold callPlan?
  cases hv : s.form v with
  | userClass c =>
    dsimp only
    rw [classPlan?, made]
  | _ =>
    rw [userInstance, read_run, ← form, hv] at made
    cases made

/-- An instance leads to the method that it answers by. -/
theorem plan?_of_instance {s : Session} {v : ValueId} {q : Question} {method : String} {args : List ValueSet}
    {names : List String} (self : (s.form v).isInstance = true) (asks : q.method? = some (method, args, names))
    (site : Site) : s.plan? site v (.answer q) = some (.method s v method args names) := by
  cases hv : s.form v with
  | builtinInstance | userInstance =>
    cases q with
    | member | elements => cases asks
    | call | iterator | index =>
      cases asks
      simp only [plan?, callPlan?, iteratorPlan?, indexPlan?, hv]
  | _ =>
    rw [hv] at self
    cases self

end Typeflow.Session
