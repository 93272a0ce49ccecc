import Typeflow.Proofs.Dispatch.Prompts
import Typeflow.Proofs.Dispatch.Rounds
import Typeflow.Proofs.Lookup

/-! When calls and what is built on them come to an end. Classes and instances hand a call on to whatever their methods
are, and no mark is kept of that. -/
namespace Typeflow.Session

variable {α : Type}

/-- From a depth on the same answer comes out. -/
def AnswersBy (enough : Nat) (m : Nat → Analysis α) (s : Session) : Prop :=
  ∃ a t, ∀ depth, enough ≤ depth → m depth s = .ok a t

/-- An answer that is found at some depth is found at every larger one. -/
theorem run_of_le {s t : Session} {depth more : Nat} {v : ValueId} {q : Question} {site : Site} {values : ValueSet}
    (run : answerWithin depth v q site s = .ok values t) (le : depth ≤ more) :
    answerWithin more v q site s = .ok values t := ok_of_deepens (.answerWithin le v q site) run

theorem AnswersBy.of_returns {s : Session} {depth : Nat} {v : ValueId} {q : Question} {site : Site}
    (returns : Returns (answerWithin depth v q site) s) :
    AnswersBy depth (fun depth => answerWithin depth v q site) s := by
  obtain ⟨t, values, run⟩ := returns
  exact ⟨values, t, fun _ le => run_of_le run le⟩

/-- In every session, a call that looks no method up comes to an end. So does a question that an instance answers by a
method, the call of a class and an iteration, if the lookup of the method comes to an end and what it finds can be
called like that. However many methods a question leads through, it does not lead on for good if it comes to an end. If
it does not lead on for good, it comes to an end, provided that the lookups of members on the way do and that no
replacement which is called asks questions itself. Values that hand calls on to one another for good answer at no
depth. -/
theorem dispatch_ends (s : Session) (site : Site) (depth : Nat) :
    (∀ v args names, s.isDirect depth v = true →
      AnswersBy depth (fun depth => answerWithin depth v (.call args names) site) s) ∧
    (∀ v q method args names, (s.form v).isInstance = true → q.method? = some (method, args, names) →
      s.FindsDirect depth v method site → AnswersBy (depth + 1) (fun depth => answerWithin depth v q site) s) ∧
    (∀ v self t args names, userInstance v s = .ok (some self) t → t.FindsDirect depth self "__init__" site →
      ∃ r, ∀ more, depth + 1 ≤ more → answerWithin more v (.call args names) site s = .ok (.single (some self)) r) ∧
    (∀ v, (s.form v).isInstance = true → s.FindsIterators depth v site →
      AnswersBy (depth + 1) (fun depth => answerWithin depth v .elements site) s) ∧
    (∀ S : Set ValueId, (∀ v ∈ S, ∃ w ∈ S, s.Hands v w) → ∀ v ∈ S, ∀ args names,
      ∃ r, answerWithin depth v (.call args names) site s = .error .endless r) ∧
    ∀ v q,
      ((∃ enough, AnswersBy enough (fun depth => answerWithin depth v q site) s) →
        Acc (fun o p => Prompts site p o) ⟨s, v, .answer q⟩) ∧
      (Acc (fun o p => Prompts site p o) ⟨s, v, .answer q⟩ → Posed.IsPlanned ⟨s, v, .answer q⟩ site →
        ∃ enough, AnswersBy enough (fun depth => answerWithin depth v q site) s) := by
  refine ⟨fun v args names direct => .of_returns (call_returns direct args names site),
    fun v q method args names self asks finds => .of_returns (instance_returns self asks finds),
    fun v self t args names made finds => ?_, fun v self finds => .of_returns (elements_returns self finds),
    fun S onward v mem args names => endless_of_hands onward mem args names site depth (.refl s),
    fun v q => ⟨fun ⟨enough, values, t, run⟩ => ?_, fun acc planned => ?_⟩⟩
  · obtain ⟨r, run⟩ := class_returns made finds args names
    exact ⟨r, fun more le => run_of_le run le⟩
  · exact acc_of_metBy ⟨t, values, run enough (Nat.le_refl _)⟩
  · obtain ⟨enough, met⟩ := Posed.Closes.metBy ⟨acc, planned⟩
    exact ⟨enough, .of_returns met⟩

/-- Two classes. One has functions as its methods and is iterated over, the other is its own initializer. -/
def withMethods : List Operation :=
  let method (name : String) : Stmt := .functionDef {} name [{ name := "self" }] [.ret {} (.name {} "self")] []
  [.addModule "m" "/m.py",
    .replaceTree ⟨0⟩ (some ⟨{}, [
      .classDef {} "C" [] [method "__init__", method "__iter__", method "__next__"],
      .classDef {} "D" [] [.pass {}],
      .assign {} [.attribute {} (.name {} "D") "__init__"] (.name {} "D"),
      .assign {} [.name {} "c"] (.call {} (.name {} "C") [] []),
      .each {} (.name {} "x") (.name {} "c") [.pass {}] []]⟩),
    .analyzeEntry ⟨0⟩ .never]

/-- A class that has an instance as its initializer, which is called by a function. -/
def withInitializer : List Operation :=
  [.addModule "m" "/m.py",
    .replaceTree ⟨0⟩ (some ⟨{}, [
      .classDef {} "C" [] [.functionDef {} "__call__" [{ name := "self" }] [.ret {} (.name {} "self")] []],
      .classDef {} "D" [] [.pass {}],
      .assign {} [.attribute {} (.name {} "D") "__init__"] (.call {} (.name {} "C") [] [])]⟩),
    .analyzeEntry ⟨0⟩ .never]

/-- The class is called through two methods, which are found one after the other. -/
private theorem closes_withInitializer (site : Site) (own : site = ⟨default, ⟨0⟩⟩) :
    Posed.Closes ⟨afterAll withInitializer bare, ⟨2⟩, .answer (.call [] [])⟩ site := by
  obtain ⟨made, looked, self, finds⟩ :
      yield? (userInstance ⟨2⟩) (afterAll withInitializer bare) = some (some ⟨5⟩) ∧
      yield? (answerWithin 3 ⟨5⟩ (.member "__init__") site)
        (after (userInstance ⟨2⟩) (afterAll withInitializer bare)) = some (.single (some ⟨3⟩)) ∧
      ((after (answerWithin 3 ⟨5⟩ (.member "__init__") site)
        (after (userInstance ⟨2⟩) (afterAll withInitializer bare))).form ⟨3⟩).isInstance = true ∧
      (after (answerWithin 3 ⟨5⟩ (.member "__init__") site)
        (after (userInstance ⟨2⟩) (afterAll withInitializer bare))).FindsDirect 3 ⟨3⟩ "__call__" site := by
    subst own
    decide +kernel
  -- What is known of the session suffices from here on.
  generalize afterAll withInitializer bare = s at made looked self finds ⊢
  exact .of_class (ok_of_yield? made) (ok_of_yield? looked) rfl (.of_instance self rfl finds)

/-- The instance is called with a function, iterates over itself and is initialized, and the other class is gone round
for good. A class that is initialized by an instance can be called too. -/
theorem dispatch_ends_with_methods :
    let s := afterAll withMethods bare
    let site : Site := ⟨default, ⟨0⟩⟩
    AnswersBy 2 (fun depth => answerWithin depth ⟨8⟩ (.call [] []) site) s ∧
      AnswersBy 4 (fun depth => answerWithin depth ⟨3⟩ .iterator site) s ∧
      (∃ r, ∀ depth, 4 ≤ depth → answerWithin depth ⟨1⟩ (.call [] []) site s = .ok (.single (some ⟨3⟩)) r) ∧
      AnswersBy 5 (fun depth => answerWithin depth ⟨3⟩ .elements site) s ∧
      (∃ r, answerWithin 10000 ⟨2⟩ (.call [] []) site s = .error .endless r) ∧
      ∃ enough, AnswersBy enough (fun depth => answerWithin depth ⟨2⟩ (.call [] []) site)
        (afterAll withInitializer bare) := by
  intro s site
  obtain ⟨direct, self, finds, made, starts, iterates, free, only⟩ :
      s.isDirect 2 ⟨8⟩ = true ∧ (s.form ⟨3⟩).isInstance = true ∧ s.FindsDirect 3 ⟨3⟩ "__iter__" site ∧
      yield? (userInstance ⟨1⟩) s = some (some ⟨3⟩) ∧
      (after (userInstance ⟨1⟩) s).FindsDirect 3 ⟨3⟩ "__init__" site ∧ s.FindsIterators 4 ⟨3⟩ site ∧
      s.exemplar? ⟨2⟩ = none ∧ s.classItems ⟨2⟩ "__init__" = [⟨2⟩] := by
    decide +kernel
  have circle : ∀ v ∈ ({⟨2⟩} : Set ValueId), ∃ w ∈ ({⟨2⟩} : Set ValueId), s.Hands v w := by
    rintro v rfl
    exact ⟨⟨2⟩, Set.mem_singleton _, .initializer (fun self kept => by rw [free] at kept; cases kept) only⟩
  refine ⟨(dispatch_ends s site 2).1 ⟨8⟩ [] [] direct, ?_, ?_, ?_, ?_, ?_⟩
  · exact (dispatch_ends s site 3).2.1 ⟨3⟩ .iterator "__iter__" [] [] self rfl finds
  · exact (dispatch_ends s site 3).2.2.1 ⟨1⟩ ⟨3⟩ (after (userInstance ⟨1⟩) s) [] [] (ok_of_yield? made) starts
  · exact (dispatch_ends s site 4).2.2.2.1 ⟨3⟩ self iterates
  · exact (dispatch_ends s site 10000).2.2.2.2.1 {⟨2⟩} circle ⟨2⟩ (Set.mem_singleton _) [] []
  · have closes := closes_withInitializer site rfl
    exact ((dispatch_ends _ site 0).2.2.2.2.2 ⟨2⟩ (.call [] [])).2 closes.acc closes.planned

/-- A class that is its own initializer. -/
def ownInitializer : List Operation :=
  [.addModule "m" "/m.py",
    .replaceTree ⟨0⟩ (some ⟨{}, [.classDef {} "C" [] [.pass {}],
      .assign {} [.attribute {} (.name {} "C") "__init__"] (.name {} "C")]⟩),
    .analyzeEntry ⟨0⟩ .never]

/-- What stands for a value that has not been made has no members if the host has no objects. -/
theorem member_run_of_absent {s : Session} {v : ValueId} (absent : s.values.size ≤ v.index)
    (objects : s.host.objects.size = 0) (name : String) (site : Site) :
    answerWithin 1 v (.member name) site s = .ok .empty s := by
  have hv : s.form v = .reflected ⟨0⟩ := form_of_le absent
  have missing : s.host.member? ⟨0⟩ name = none := by
    rw [Host.member?, Host.members, Host.object, Array.getD_eq_getD_getElem?,
      Array.getElem?_eq_none (Nat.le_of_eq objects)]
    rfl
  show memberOf (answerWithin 0) v name site s = _
  rw [memberOf, read_run, hv]
  dsimp only
  rw [read_run, missing]
  rfl

/-- Every lookup of a member comes to an end there, but the class is called for its initializer over and over. -/
theorem own_initializer_is_endless :
    let s := afterAll ownInitializer bare
    (∀ v name site, ∃ depth, ∀ t, answerWithin depth v (.member name) site s ≠ .error .endless t) ∧
      ¬ ∀ v args names site, ∃ depth, ∀ t, answerWithin depth v (.call args names) site s ≠ .error .endless t := by
  intro s
  obtain ⟨fits, size, objects, alone, free, only⟩ :
      Fitting ownInitializer bare ∧ s.values.size = 2 ∧ s.host.objects.size = 0 ∧
      (∀ v ∈ [⟨0⟩, ⟨1⟩], s.passed v = [] ∧ ∀ x ∈ (s.form v).record? .bases, (s.types x).items = []) ∧
      s.exemplar? ⟨1⟩ = none ∧ s.classItems ⟨1⟩ "__init__" = [⟨1⟩] := by
    decide +kernel
  have reached : s = afterAll ownInitializer bare := rfl
  -- What is known of the session suffices from here on.
  clear_value s
  have clear : ∀ o, ¬ s.host.Circular o := not_circular_of_size objects
  refine ⟨fun v name site => ?_, fun claimed => ?_⟩
  · by_cases there : v.index < s.values.size
    · have known : v ∈ [(⟨0⟩ : ValueId), ⟨1⟩] := by
        obtain ⟨index⟩ := v
        have small : index = 0 ∨ index = 1 := by
          simp only [size] at there
          omega
        rcases small with rfl | rfl <;> simp
      obtain ⟨grounded, unwinds⟩ := unwinds_of_alone there (alone v known).1 (alone v known).2 name
      have ends := member_ends create_bare fits reached clear grounded unwinds site
      exact ⟨s.lookupDepth, (ends _ (Nat.le_refl _)).2⟩
    · have run := member_run_of_absent (Nat.le_of_not_lt there) objects name site
      refine ⟨1, fun t ends => ?_⟩
      rw [run] at ends
      cases ends
  · obtain ⟨depth, ends⟩ := claimed ⟨1⟩ [] [] ⟨default, ⟨0⟩⟩
    have circle : ∀ v ∈ ({⟨1⟩} : Set ValueId), ∃ w ∈ ({⟨1⟩} : Set ValueId), s.Hands v w := by
      rintro v rfl
      exact ⟨⟨1⟩, Set.mem_singleton _, .initializer (fun self kept => by rw [free] at kept; cases kept) only⟩
    obtain ⟨r, endless⟩ := endless_of_hands circle (Set.mem_singleton _) [] [] ⟨default, ⟨0⟩⟩ depth (.refl s)
    exact ends r endless

end Typeflow.Session
