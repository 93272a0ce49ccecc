import Typeflow.Proofs.Resources.Declare
import Typeflow.Session.Answer

/-! What always succeeds on the way to an answer: making values, reading records, binding arguments. Only questions
and the objects of the host can fail. -/
namespace Typeflow

/-- Whether the replacement yields its result without a question. -/
def Recipe.asksNothing : Recipe → Bool
  | .object _ | .memberOf .. | .callOf _ => false
  | _ => true

def Override.asksNothing : Override → Bool
  | .getattr | .next | .iter | .extend _ | .instanceOfMember .. | .transparent => false
  | .recipe _ .action _ => true
  | .recipe _ _ yields => yields.asksNothing
  | _ => true

namespace Session

variable {α : Type}

section Values

theorem total_classNameOr (cls : Found) (word : String) : Total (classNameOr cls word) := by
  cases cls with
  | none => exact .pure _
  | some cls => exact .read fun _ => .pure _

theorem total_knownType (id : TypeId) : Total (knownType id) := .read fun _ => total_classOf? _

theorem total_instancesOfType (type : Option ObjectId) : Total (instancesOfType type) := by
  refine .bind (total_classOf? type) fun found => ?_
  cases found with
  | none => exact .pure _
  | some cls => exact total_instancesOf cls

theorem total_knownInstance (id : TypeId) : Total (knownInstance id) := by
  refine .bind (total_knownType id) fun found => ?_
  cases found with
  | none => exact .pure _
  | some cls => exact total_instancesOf cls

theorem total_builtinInstance (cls : ValueId) : Total (builtinInstance cls) := by
  refine .read fun s => ?_
  dsimp only
  split
  · exact .bind (total_keptOr cls .instance_ (.modifyGet _)) fun _ => .pure _
  · exact .pure _

theorem total_constantValue (value : Constant) : Total (constantValue value) :=
  total_recall (.bind (.modify _) fun _ => .read fun _ => .bind (total_knownType _) fun _ =>
    .bind (total_classNameOr _ _) fun _ => .bind (.modifyGet _) fun _ => .pure _)

theorem total_aggregate (members : List Found) : Total (aggregate members) := by
  unfold aggregate
  split
  · exact .pure _
  · exact .pure _
  · exact total_recall (.read fun _ => .bind (.modifyGet _) fun _ => .pure _)

private theorem total_boundMethod (function self : ValueId) : Total (boundMethod function self) :=
  total_recall (.read fun _ => .bind (.modifyGet _) fun _ => .pure _)

theorem total_newWrapper (wrapped : Found) (qualified : String) (source : WrapperSource) :
    Total (newWrapper wrapped qualified source) := by
  refine .read fun s => ?_
  cases wrapped with
  | none => exact .modifyGet _
  | some v => exact .modifyGet _

theorem total_wrapAll (values : ValueSet) (qualified : String) (source : WrapperSource) :
    Total (do newWrapper (← aggregate (values.items.map some)) qualified source) :=
  .bind (total_aggregate _) fun _ => total_newWrapper _ _ _

theorem total_newSequence (type : Found) : Total (newSequence type) :=
  .bind (total_classNameOr _ _) fun _ => .read fun _ => .bind (.modifyGet _) fun _ => .modifyGet _

end Values

section Reading

theorem total_readAt (x : VarId) (site : Site) : Total (readAt x site) :=
  .bind (.modify _) fun _ => .read fun _ => .pure _

theorem total_throughProperty (v : ValueId) : Total (throughProperty v) := by
  refine .read fun s => ?_
  split
  · exact .read fun _ => total_instancesOfType _
  · exact .pure _

theorem total_throughInstance (self v : ValueId) : Total (throughInstance self v) :=
  .read fun _ => .ite (.bind (total_boundMethod _ _) fun _ => .pure _) (total_throughProperty v)

theorem total_throughSuper (instances : ValueSet) (v : ValueId) : Total (throughSuper instances v) :=
  .read fun _ => .ite (.pure _) (.joinM (fun _ => .bind (total_boundMethod _ _) fun _ => .pure _) _)

end Reading

section Calls

private theorem total_addToParam (f : UserFunction) (name : String) (values : ValueSet) :
    Total (addToParam f name values) := by
  refine .read fun s => ?_
  split
  · exact .pure _
  · exact total_addTypes _ _

private theorem total_restTuple (v : ValueId) : Total (restTuple v) :=
  total_keptOr v .rest (.bind (total_knownType _) fun _ => total_newSequence _)

private theorem total_addToRest (v : ValueId) (values : ValueSet) : Total (addToRest v values) := by
  refine .bind (total_restTuple v) fun tuple => .read fun s => ?_
  split
  · exact total_addTypes _ _
  · exact .pure _

private theorem total_bindStarred (v : ValueId) (f : UserFunction) : Total (bindStarred v f) := by
  unfold bindStarred
  cases lastParam f .rest
  case' none => refine .bind (.pure _) fun _ => ?_
  case' some name =>
    refine .bind (total_nameIn _ _) fun _ => .bind (total_restTuple v) fun _ => .bind (total_addTypes _ _) fun _ => ?_
  -- What follows is the same whether there was a parameter for the rest or not.
  all_goals
    cases lastParam f .namedRest with
    | none => exact .bind (.pure _) fun _ => .pure _
    | some name =>
      exact .bind (total_nameIn _ _) fun _ => .bind (total_knownInstance _) fun _ =>
        .bind (total_addTypes _ _) fun _ => .pure _

private theorem total_bindEach (v : ValueId) (f : UserFunction) (changed : Bool) (free : List String)
    (args : List (ValueSet × String)) : Total (bindEach v f changed free args) := by
  induction args generalizing changed free with
  | nil => exact .pure _
  | cons arg rest ih =>
    obtain ⟨values, name⟩ := arg
    unfold bindEach
    split
    · split
      · exact .bind (total_addToParam _ _ _) fun _ => ih _ _
      · exact .ite (.bind (total_addToRest _ _) fun _ => ih _ _) (ih _ _)
    · exact .ite (.bind (total_addToParam _ _ _) fun _ => ih _ _) (ih _ _)

theorem total_bindArguments (v : ValueId) (f : UserFunction) (args : List ValueSet) (names : List String) :
    Total (bindArguments v f args names) :=
  .bind (total_bindStarred v f) fun _ => total_bindEach v f _ _ _

private theorem total_newUnit (entry : Option EntryId) (scope : ScopeId) (body : Body) :
    Total (newUnit entry scope body) := by
  refine .bind (.modifyGet _) fun u => ?_
  cases entry with
  | none => exact .pure _
  | some e => exact .read fun _ => .ite (.bind (total_retire u) fun _ => .pure _) (.bind (total_updateEntry e _) fun _ => .pure _)

private theorem total_unitOf (v : ValueId) : Total (unitOf v) := by
  refine .read fun s => ?_
  split
  · exact .pure _
  · exact .bind (total_newUnit _ _ _) fun _ => .bind (.modify _) fun _ => .pure _
  · exact .pure _

theorem total_enqueueBody (v : ValueId) (place : QueueEnd) : Total (enqueueBody v place) := by
  refine .bind (total_unitOf v) fun found => ?_
  cases found with
  | none => exact .pure _
  | some u => exact total_enqueue u place

/-- A call of a function of the program only binds its arguments and reads what it has returned so far. -/
theorem total_callFunction (v : ValueId) (f : UserFunction) (args : List ValueSet) (names : List String)
    (site : Site) : Total (callFunction v f args names site) :=
  .bind (total_bindArguments v f args names) fun _ =>
    .ite (.bind (total_enqueueBody v .back) fun _ => total_readAt _ _) (total_readAt _ _)

end Calls

section Replacements

theorem total_siteValue {make : Analysis ValueSet} (h : Total make) (site : Site) :
    Total (siteValue site make) := by
  refine .read fun s => .bind (.read fun t => ?_) fun _ => .pure _
  split
  · exact .pure _
  · exact .bind (.modify _) fun _ => .bind (.bind h fun _ => .pure _) fun _ => .bind (.modify _) fun _ => .pure _

theorem total_addToSequences (values elements : ValueSet) : Total (addToSequences values elements) := by
  refine .forM (fun v => .read fun s => ?_) values.items
  split
  · exact .bind (total_addTypes _ _) fun _ => .pure _
  · exact .pure _

theorem total_sequenceIterator (v : ValueId) (elements : VarId) : Total (sequenceIterator v elements) :=
  .bind (total_keptOr _ _ (.bind (total_knownType _) fun _ => .bind (total_classNameOr _ _) fun _ => .modifyGet _))
    fun _ => .pure _

private theorem total_constantSet (value : Constant) : Total (constantSet value) :=
  .bind (total_constantValue value) fun _ => .pure _

private theorem total_rangeAt (site : Site) : Total (rangeAt site) :=
  total_siteValue (.bind (total_knownType _) fun _ => .bind (total_newSequence _) fun _ =>
    .bind (total_knownInstance _) fun _ => .bind (total_addToSequences _ _) fun _ => .pure _) site

private theorem total_implicitSuper (site : Site) : Total (implicitSuper site) := by
  refine .read fun s => ?_
  split
  · split
    · exact .ite (.pure _) (.bind (total_instancesOf _) fun _ => .pure _)
    · exact .pure _
  · exact .pure _

private theorem total_superAt (a : Arguments) (site : Site) : Total (superAt a site) := by
  have rest : ∀ given : SuperArguments, Total (do
      let classes := (← get).userClasses given.classes
      if classes.isEmpty then return .empty
      siteValue site do
        ValueSet.joinM classes fun cls => return .single (← newSuper cls given.instances)) := fun given =>
    .read fun s => .ite (.pure _) (total_siteValue (.joinM (fun cls => .bind (.modifyGet _) fun _ => .pure _) _) site)
  unfold superAt
  split
  · exact .read fun s => .ite (.bind (total_implicitSuper site) rest) (.bind (.pure _) rest)
  all_goals exact .bind (.pure _) rest

private theorem total_loadComponentAt (a : Arguments) (site : Site) : Total (loadComponentAt a site) := by
  refine .read fun s => ?_
  split
  · split
    · exact .pure _
    · exact .bind (.modify _) fun _ => .bind (.forM (fun _ => total_setDeclared _ _ _ _) _) fun _ => .pure _
  · exact .pure _

private theorem total_recipeAt {recipe : Recipe} (silent : recipe.asksNothing = true) (ask : Ask) (a : Arguments)
    (site : Site) : Total (recipeAt ask a site recipe) := by
  cases recipe with
  | noOpinion | argument | allArguments => exact .pure _
  | constants values => exact .bind (.joinM total_constantSet values) fun _ => .pure _
  | instanceOf id => exact .bind (total_knownInstance id) fun _ => .pure _
  | _ => cases silent

/-- A replacement that asks nothing always succeeds, whoever would answer. -/
theorem total_runOverride {override : Override} (silent : override.asksNothing = true) (ask : Ask)
    (a : Arguments) (site : Site) : Total (runOverride ask a site override) := by
  cases override with
  | nothing | firstArgument => exact .pure _
  | unionOfArguments => exact .read fun _ => .pure _
  | instanceOf id => exact .bind (total_knownInstance id) fun _ => .pure _
  | range => exact .bind (total_rangeAt site) fun _ => .pure _
  | super => exact .bind (total_superAt a site) fun _ => .pure _
  | loadComponent => exact total_loadComponentAt a site
  | append v =>
    unfold runOverride
    dsimp only
    split
    · exact .bind (total_addToSequences _ _) fun _ => .bind (total_constantSet _) fun _ => .pure _
    · exact .bind (total_constantSet _) fun _ => .pure _
  | nextElement v =>
    refine .read fun s => ?_
    split
    · exact .bind (total_readAt _ site) fun _ => .pure _
    · exact .pure _
  | newInstance =>
    unfold runOverride
    dsimp only
    split
    · exact .pure _
    · exact .bind (.joinM total_instancesOf _) fun _ => .pure _
  | recipe tag form recipe =>
    cases form with
    | set => exact .bind (.modify _) fun _ => total_recipeAt silent ask a site
    | values => exact .bind (.modify _) fun _ => .bind (total_recipeAt silent ask a site) fun _ => .pure _
    | action => exact .bind (.modify _) fun _ => .pure _
  | _ => cases silent

theorem runOverride_eq {override : Override} (silent : override.asksNothing = true) (ask other : Ask)
    (a : Arguments) (site : Site) : runOverride ask a site override = runOverride other a site override := by
  cases override with
  | recipe tag form recipe => cases form <;> first | rfl | (cases recipe <;> first | rfl | cases silent)
  | _ => first | rfl | cases silent

end Replacements

end Session

end Typeflow
