import Typeflow.Proofs.Resolution
import Typeflow.Proofs.Lookup.Looks

/-! Questions that come to an end within a number of steps come to the same end within more. -/
namespace Typeflow.Session.Deepens

variable {α β : Type} {m n : Analysis α}

theorem ite {c : Prop} [Decidable c] {k l : Analysis α} (h : Deepens m n) (g : Deepens k l) :
    Deepens (if c then m else k) (if c then n else l) := by
  split
  · exact h
  · exact g

/-- An action goes on in the same way after the same beginning. -/
theorem goOn {f g : α → Analysis β} (m : Analysis α) (h : ∀ a, Deepens (f a) (g a)) :
    Deepens (m >>= f) (m >>= g) := bind (refl m) h

theorem joinM {f g : α → Analysis ValueSet} (h : ∀ a, Deepens (f a) (g a)) (items : List α) :
    Deepens (ValueSet.joinM items f) (ValueSet.joinM items g) := by
  have loop : ∀ (items : List α) (acc : ValueSet),
      Deepens (items.foldlM (fun acc item => do return acc.join (← f item)) acc)
        (items.foldlM (fun acc item => do return acc.join (← g item)) acc) := by
    intro items
    induction items with
    | nil => exact fun _ => refl _
    | cons a rest ih => exact fun acc => bind (bind (h a) fun _ => refl _) fun grown => ih grown
  exact loop items .empty

/-- A cleanup that always succeeds does not hide that an action has no end. -/
theorem cleanup {c : Analysis β} (h : Deepens m n) (total : Total c) :
    Deepens (tryFinally m c) (tryFinally n c) := by
  intro s ends
  have first : n s = m s := by
    refine h s fun t run => ends (after c t) ?_
    obtain ⟨b, clean⟩ := total t
    simp only [tryFinally, MonadFinally.tryFinally', Functor.map, EStateM.map, run, clean]
  simp only [tryFinally, MonadFinally.tryFinally', Functor.map, EStateM.map, first]

section Rules

variable {ask more : Ask} {site : Site} (h : ∀ v q site, Deepens (ask v q site) (more v q site))
include h

theorem all (values : ValueSet) (q : Question) : Deepens (ask.all values q site) (more.all values q site) :=
  joinM (fun v => h v q site) values.items

theorem callMember (v : ValueId) (name : String) (args : List ValueSet) (names : List String) :
    Deepens (ask.callMember v name args names site) (more.callMember v name args names site) :=
  bind (h _ _ _) fun found => all h found _

theorem askExemplar (type : Found) (q : Question) :
    Deepens (Session.askExemplar ask type q site) (Session.askExemplar more type q site) := by
  refine goOn _ fun found => ?_
  cases found with
  | none => exact refl _
  | some v => exact h v q site

theorem exemplarMember (type : Found) (name : String) :
    Deepens (Session.exemplarMember ask type name site) (Session.exemplarMember more type name site) := by
  refine goOn _ fun found => ?_
  cases found with
  | none => exact refl _
  | some v => exact h v _ site

theorem userClassMember (cls : ValueId) (c : UserClass) (name : String) :
    Deepens (Session.userClassMember ask cls c name site) (Session.userClassMember more cls c name site) :=
  goOn _ fun _ => goOn _ fun _ => ite (refl _) <| goOn _ fun bases => read fun _ =>
    ite (refl _) <| goOn _ fun _ => cleanup (all h bases _) (total_setResolving _ _)

theorem userInstanceMember (v cls : ValueId) (name : String) :
    Deepens (Session.userInstanceMember ask v cls name site) (Session.userInstanceMember more v cls name site) := by
  refine goOn _ fun found => ?_
  cases found with
  | some x => exact goOn _ fun _ => bind (h _ _ _) fun _ => refl _
  | none => exact goOn _ fun _ => bind (h _ _ _) fun _ => refl _

theorem superMember (cls : ValueId) (instances : ValueSet) (name : String) :
    Deepens (Session.superMember ask cls instances name site) (Session.superMember more cls instances name site) := by
  refine read fun s => ?_
  split
  · exact goOn _ fun _ => joinM (fun base => bind (h base _ site) fun _ => refl _) _
  · exact refl _

theorem memberOf (v : ValueId) (name : String) :
    Deepens (Session.memberOf ask v name site) (Session.memberOf more v name site) := by
  refine read fun s => ?_
  cases s.form v <;> dsimp only
  case builtinInstance cls => exact bind (h _ _ _) fun _ => refl _
  case constant type value => exact exemplarMember h type name
  case multiple members => exact joinM (fun member => h member _ site) _
  case userClass c => exact userClassMember h v c name
  case userInstance cls attributes => exact userInstanceMember h v cls name
  case sequence type elements => exact bind (exemplarMember h type name) fun _ => refl _
  case iterator type elements => exact bind (exemplarMember h type name) fun _ => refl _
  case super cls instances => exact superMember h cls instances name
  case wrapper w =>
    split
    · exact refl _
    · exact h _ _ site
  all_goals exact refl _

theorem iteratorOf (v : ValueId) : Deepens (Session.iteratorOf ask v site) (Session.iteratorOf more v site) := by
  refine read fun s => ?_
  split
  · exact askExemplar h _ _
  · exact refl _
  · exact refl _
  · exact callMember h _ _ _ _

theorem elementsByMethod (v : ValueId) :
    Deepens (Session.elementsByMethod ask v site) (Session.elementsByMethod more v site) :=
  bind (h _ _ _) fun iterators => joinM (fun iterator => read fun _ =>
    ite (h iterator _ site) (callMember h iterator _ _ _)) iterators.items

theorem elementsOf (v : ValueId) : Deepens (Session.elementsOf ask v site) (Session.elementsOf more v site) := by
  refine read fun s => ?_
  split
  · exact askExemplar h _ _
  · exact refl _
  · exact refl _
  · exact bind (elementsByMethod h v) fun _ => refl _
  · exact elementsByMethod h v

theorem indexOf (v : ValueId) (i : ValueSet) :
    Deepens (Session.indexOf ask v i site) (Session.indexOf more v i site) := by
  refine read fun s => ?_
  split
  · exact askExemplar h _ _
  · exact refl _
  · exact bind (callMember h _ _ _ _) fun _ => refl _
  · exact callMember h _ _ _ _

theorem callSequenceType (cls : ValueId) (args : List ValueSet) :
    Deepens (Session.callSequenceType ask cls args site) (Session.callSequenceType more cls args site) := by
  refine goOn _ fun made => ?_
  cases args with
  | nil => exact refl _
  | cons first rest => exact bind (all h first _) fun _ => refl _

theorem callClass (cls : ValueId) (args : List ValueSet) (names : List String) :
    Deepens (Session.callClass ask cls args names site) (Session.callClass more cls args names site) := by
  refine goOn _ fun self => ?_
  cases self with
  | none => exact refl _
  | some self => exact bind (callMember h _ _ _ _) fun _ => refl _

theorem getattrAt (a : Arguments) : Deepens (Session.getattrAt ask a site) (Session.getattrAt more a site) := by
  unfold Session.getattrAt
  split
  · refine bind (joinM (fun v => joinM (fun name => read fun s => ?_) _) _) fun _ => refl _
    split
    · exact h _ _ _
    · exact refl _
  · exact refl _

theorem nextAt (a : Arguments) : Deepens (Session.nextAt ask a site) (Session.nextAt more a site) := by
  unfold Session.nextAt
  split
  · exact refl _
  · exact read fun _ => bind (all h _ _) fun method => all h method _

theorem iterAt (a : Arguments) : Deepens (Session.iterAt ask a site) (Session.iterAt more a site) := by
  unfold Session.iterAt
  split
  · exact all h _ _
  · exact goOn _ fun _ => bind (all h _ _) fun _ => refl _
  · exact refl _

theorem namedInstances (module type : String) :
    Deepens (Session.namedInstances ask module type site) (Session.namedInstances more module type site) := by
  refine goOn _ fun found => ?_
  cases found with
  | none => exact refl _
  | some m => exact bind (h _ _ _) fun _ => refl _

theorem recipeAt (a : Arguments) (recipe : Recipe) :
    Deepens (Session.recipeAt ask a site recipe) (Session.recipeAt more a site recipe) := by
  cases recipe with
  | memberOf i name => exact bind (all h _ _) fun _ => refl _
  | callOf i => exact bind (all h _ _) fun _ => refl _
  | _ => exact refl _

theorem runRecipe (tag : Option String) (recipe : Recipe) (a : Arguments) (form : RecipeForm) :
    Deepens (Session.runRecipe ask tag recipe a site form) (Session.runRecipe more tag recipe a site form) := by
  cases form with
  | set => exact goOn _ fun _ => recipeAt h a recipe
  | values => exact goOn _ fun _ => bind (recipeAt h a recipe) fun _ => refl _
  | action => exact refl _

theorem runOverride (a : Arguments) (override : Override) :
    Deepens (Session.runOverride ask a site override) (Session.runOverride more a site override) := by
  cases override with
  | getattr => exact bind (getattrAt h a) fun _ => refl _
  | next => exact bind (nextAt h a) fun _ => refl _
  | iter => exact bind (iterAt h a) fun _ => refl _
  | extend v =>
    unfold Session.runOverride
    dsimp only
    split
    · exact bind (all h _ _) fun _ => refl _
    · exact refl _
  | instanceOfMember module type => exact namedInstances h module type
  | recipe tag form recipe => exact runRecipe h tag recipe a form
  | _ => exact refl _

theorem callWrapped (w : Wrapper) (a : Arguments) :
    Deepens (Session.callWrapped ask w a site) (Session.callWrapped more w a site) := by
  unfold Session.callWrapped
  split
  · exact refl _
  · exact h _ _ _

theorem callWrapper (w : Wrapper) (a : Arguments) :
    Deepens (Session.callWrapper ask w a site) (Session.callWrapper more w a site) := by
  refine read fun s => ?_
  split
  · exact callWrapped h w a
  · exact callWrapped h w a
  · exact goOn _ fun _ => bind (runOverride h a _) fun _ =>
      ite (bind (callWrapped h w a) fun _ => refl _) (refl _)

theorem callOf (v : ValueId) (args : List ValueSet) (names : List String) :
    Deepens (Session.callOf ask v args names site) (Session.callOf more v args names site) := by
  refine read fun s => ?_
  cases s.form v <;> dsimp only
  case builtinClass type => exact read fun _ => ite (callSequenceType h _ _) (refl _)
  case builtinInstance => exact callMember h _ _ _ _
  case userInstance => exact callMember h _ _ _ _
  case constant type value => exact askExemplar h _ _
  case multiple members => exact joinM (fun member => h member _ site) _
  case userClass => exact callClass h _ _ _
  case boundMethod => exact h _ _ _
  case wrapper w => exact callWrapper h w _
  all_goals exact refl _

theorem respond (v : ValueId) (q : Question) :
    Deepens (Session.respond ask v q site) (Session.respond more v q site) := by
  cases q with
  | member name => exact memberOf h v name
  | call args names => exact callOf h v args names
  | iterator => exact iteratorOf h v
  | elements => exact elementsOf h v
  | index i => exact indexOf h v i

end Rules

theorem answerWithin {depth more : Nat} (le : depth ≤ more) (v : ValueId) (q : Question) (site : Site) :
    Deepens (Session.answerWithin depth v q site) (Session.answerWithin more v q site) := by
  induction depth generalizing more v q site with
  | zero => exact of_endless _
  | succ depth ih =>
    obtain ⟨more, rfl⟩ : ∃ n, more = n + 1 := ⟨more - 1, by omega⟩
    exact respond (fun v q site => ih (Nat.le_of_succ_le_succ le) v q site) v q

end Typeflow.Session.Deepens
