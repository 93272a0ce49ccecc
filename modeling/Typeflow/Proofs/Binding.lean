import Typeflow.Proofs.Binding.Arguments
import Typeflow.Proofs.Registry.History
import Typeflow.Proofs.Roam.Answer
import Typeflow.Session.Answer

/-! Calls of functions bind every argument, and queue the body when that is news to a parameter. -/
namespace Typeflow.Session

variable {s t : Session} {v : ValueId} {f : UserFunction} {args : List ValueSet} {names : List String}

/-- The arguments were bound: every record has taken in what the call has for it, and no other has changed. -/
structure Binding (v : ValueId) (f : UserFunction) (args : List ValueSet) (names : List String) (news : Bool)
    (s t : Session) : Prop where
  scopes : t.scopes = s.scopes
  named : ∀ p ∈ f.params, ∃ x, t.findName? f.scope p.1 = some x
  rest : lastParam f .rest ≠ none → ∃ w type x, (t.value v).kept? .rest = some w ∧ t.form w = .sequence type x
  kept : ∀ w, (s.value v).kept? .rest = some w → (t.value v).kept? .rest = some w
  caps : ∀ x, x.index < s.records.size → (t.var x).cap = (s.var x).cap
  gathers : ∀ x, ∃ sets : List ValueSet, (∀ values, values ∈ sets ↔ Delivers t v f args names x values) ∧
    (sets = [] → t.types x = s.types x) ∧
    (sets ≠ [] → (t.types x).members =
      ValueSet.capAt (t.var x).cap ((s.types x).members ⊔ sets.toFinset.sup ValueSet.members))
  changed : news = true ↔ ∃ x, t.types x ≠ s.types x

private theorem binding_run (h : Callable v f s) (args : List ValueSet) (names : List String) :
    ∃ news t, bindArguments v f args names s = .ok news t ∧ Binding v f args names news s t ∧
      Maintains s t ∧ (news = false → t.queue = s.queue) := by
  obtain ⟨news, t, sets, run, joins, callable, has, delivers⟩ := bindArguments_run h args names
  refine ⟨news, t, run, ⟨joins.scopes, fun p hp => ?_, fun starred => ?_, fun w => joins.kept v .rest w, joins.caps,
    fun x => ⟨setsFor x sets, fun u => mem_setsFor.trans (delivers x u), fun none => ?_, fun some => ?_⟩,
    joins.changed⟩, joins.toMaintains, joins.queue⟩
  · obtain ⟨x, found, -⟩ := callable.named p hp
    exact ⟨x, found⟩
  · obtain ⟨w, kept⟩ := has starred
    obtain ⟨type, x, form, -⟩ := callable.rest starred w kept
    exact ⟨w, type, x, kept, form⟩
  · rw [joins.types, none]
    rfl
  · rw [joins.types, ValueSet.members_gather _ _ some]

section Call

variable {site : Site} {news : Bool}

private theorem holds_enqueue (u : UnitId) (place : QueueEnd) (s : Session)
    (alive : (after (enqueue u place) s).isAlive u = true) :
    (after (enqueue u place) s).queue.holds ((after (enqueue u place) s).job u) = true := by
  have queues := queues_enqueue u place s
  rw [queues.isAlive] at alive
  rw [queues.job]
  exact queues.held u (List.mem_singleton_self u) alive

/-- The body of a definition that still has one gets its unit, which is queued if it may run. -/
theorem enqueueBody_queues {body : Body} (form : s.form v = .function f) (has : f.body = some body)
    (place : QueueEnd) : ∃ u, (after (enqueueBody v place) s).form v = .function { f with unit := some u } ∧
      ((after (enqueueBody v place) s).isAlive u = true →
        (after (enqueueBody v place) s).queue.holds ((after (enqueueBody v place) s).job u) = true) := by
  have code : (s.form v).code? = some f.toCode := by rw [form]; rfl
  have stays : ∀ (u : UnitId) (t : Session), (after (enqueue u place) t).form v = t.form v := fun u t => by
    rw [(queues_enqueue u place t).frame]
    rfl
  rcases after_enqueueBody v place s with ⟨gone, -⟩ | ⟨known, found, is, -, ⟨u, unit, ends⟩ | ⟨unit, ends⟩⟩
  · rw [gone _ code] at has
    cases has
  · obtain rfl : f.toCode = known := Option.some.inj (code.symm.trans is)
    rw [ends]
    refine ⟨u, (stays u s).trans ?_, holds_enqueue u place s⟩
    rw [form, ← unit]
  · rw [ends]
    refine ⟨_, (stays _ _).trans ?_, holds_enqueue _ place _⟩
    rw [withUnitFor, form_withCode, if_pos rfl]
    exact congrArg (Form.mapCode _) form

private theorem types_enqueueBody (v : ValueId) (place : QueueEnd) (s : Session) (x : VarId) :
    (after (enqueueBody v place) s).types x = s.types x := by
  have queued : ∀ (u : UnitId) (t : Session), (after (enqueue u place) t).types x = t.types x := fun u t => by
    rw [(queues_enqueue u place t).frame]
    rfl
  rcases after_enqueueBody v place s with ⟨-, ends⟩ | ⟨code, body, -, -, ⟨u, -, ends⟩ | ⟨-, ends⟩⟩ <;> rw [ends]
  · exact queued u s
  · exact queued _ _

private theorem answerWithin_call (form : s.form v = .function f) (site : Site) (depth : Nat) :
    answerWithin (depth + 1) v (.call args names) site s = callFunction v f args names site s := by
  rw [answerWithin, respond, callOf, read_run, form]

/-- A call that is news to a parameter queues the body. -/
theorem callFunction_run (form : s.form v = .function f) (binds : bindArguments v f args names s = .ok news t)
    (same : t.form v = .function f) (site : Site) :
    ∃ q, answer v (.call args names) site s = .ok (t.types f.returns) q ∧ (∀ x, q.types x = t.types x) ∧
      (news = false → q.queue = t.queue) ∧
      (news = true → ∀ body, f.body = some body → ∃ u, q.form v = .function { f with unit := some u } ∧
        (q.isAlive u = true → q.queue.holds (q.job u) = true)) := by
  have rule : answer v (.call args names) site s = callFunction v f args names site s :=
    answerWithin_call form site (questionDepth - 1)
  cases news with
  | false =>
    refine ⟨after (addReader f.returns site.unit) t, ?_, fun x => (Peeks.addReader _ _ t).types x, fun _ => rfl,
      by rintro ⟨⟩⟩
    rw [rule, callFunction, bind_of_ok binds]
    exact readAt_run f.returns site t
  | true =>
    let waiting := after (enqueueBody v .back) t
    obtain ⟨⟨⟩, queued⟩ := total_enqueueBody v .back t
    refine ⟨after (addReader f.returns site.unit) waiting, ?_, fun x => ?_, by rintro ⟨⟩, fun _ body has => ?_⟩
    · rw [rule, callFunction, bind_of_ok binds, if_pos rfl, bind_of_ok queued, ← types_enqueueBody v .back t]
      exact readAt_run f.returns site waiting
    · exact ((Peeks.addReader _ _ waiting).types x).trans (types_enqueueBody v .back t x)
    · exact enqueueBody_queues same has .back

/-- A method puts the instance in front and leaves every argument its name. -/
theorem answerWithin_call_method {m w self : ValueId} (form : s.form m = .boundMethod w self) (site : Site)
    (depth : Nat) : answerWithin (depth + 1) m (.call args names) site s =
      answerWithin depth w (.call (.single (some self) :: args) (methodNames args names)) site s := by
  rw [answerWithin, respond, callOf, read_run, form]

private theorem getD_methodNames (args : List ValueSet) (names : List String) {k : Nat} (inside : k < args.length) :
    (methodNames args names).getD (k + 1) "" = names.getD k "" := by
  rw [methodNames, List.getD_cons_succ, List.getD_eq_getElem?_getD, List.getD_eq_getElem?_getD, List.getElem?_append]
  by_cases given : k < names.length
  · rw [if_pos (by simp [inside, given]), List.getElem?_take_of_lt inside]
  · have past : names[k]? = none := List.getElem?_eq_none (Nat.le_of_not_lt given)
    rw [if_neg (by simp [given]), List.getElem?_replicate, past]
    split <;> rfl

end Call

/-- At any moment of a history a call of a function binds every argument: each record takes in what the call has
for it, the others stay, and the answer tells whether that has changed any. If it has, the unit of the body waits
unless it is retired, and if it has not, nothing is queued. A call of a method of the function is the call with the
instance in front, in which the arguments keep their names. -/
theorem call_binds_every_argument {options : Options} {host : Host} {hostRequests : List Request} {first : Session}
    (made : create options host hostRequests = .ok first) {ops : List Operation} (fits : Fitting ops first)
    (moment : Moment (afterAll ops first) s) (form : s.form v = .function f) (site : Site) :
    (∀ (args : List ValueSet) (names : List String), ∃ news t q,
      bindArguments v f args names s = .ok news t ∧ Binding v f args names news s t ∧
      answer v (.call args names) site s = .ok (t.types f.returns) q ∧ (∀ x, q.types x = t.types x) ∧
      (news = false → q.queue = s.queue) ∧
      (news = true → ∀ body, f.body = some body → ∃ u, q.form v = .function { f with unit := some u } ∧
        (q.isAlive u = true → q.job u ∈ q.queue.jobs))) ∧
    (∀ m w self, s.form m = .boundMethod w self → ∀ (args : List ValueSet) (names : List String) depth,
      answerWithin (depth + 1) m (.call args names) site s =
        answerWithin depth w (.call (.single (some self) :: args) (methodNames args names)) site s) ∧
    (∀ m self, s.form m = .boundMethod v self → ∀ (args : List ValueSet) (names : List String),
      answer m (.call args names) site s =
        answer v (.call (.single (some self) :: args) (methodNames args names)) site s) ∧
    ∀ (args : List ValueSet) (names : List String), (methodNames args names).getD 0 "" = "" ∧
      ∀ k < args.length, (methodNames args names).getD (k + 1) "" = names.getD k "" := by
  obtain ⟨sane, supplied⟩ := supplied_of_history made fits moment
  refine ⟨fun args names => ?_, fun m w self method args names depth => answerWithin_call_method method site depth,
    fun m self method args names => ?_, fun args names => ⟨rfl, fun k inside => getD_methodNames args names inside⟩⟩
  · obtain ⟨news, t, binds, binding, maintains, quiet⟩ := binding_run (supplied.callable form) args names
    have same : t.form v = .function f := by
      rw [maintains.form v (supplied.callable form).there, form]
    obtain ⟨q, run, types, queue, queued⟩ := callFunction_run form binds same site
    refine ⟨news, t, q, binds, binding, run, types, fun none => (queue none).trans (quiet none),
      fun changed body has => ?_⟩
    obtain ⟨u, unit, holds⟩ := queued changed body has
    refine ⟨u, unit, fun alive => ?_⟩
    have coherent : Coherent q := by
      have steps : Steps noLicence s (after (callFunction v f args names site) s) :=
        Stepwise.of_roams (Roams.callFunction trivial trivial (fun _ _ => Realm.set_all _) names site) s
      rw [after_of_ok ((answerWithin_call form site (questionDepth - 1)).symm.trans run)] at steps
      have sound : noLicence.Sound s := fun _ _ defines => False.elim defines
      exact (sane.steps sound steps).1.coherent
    exact coherent.mem_of_holds alive (holds alive)
  · have whole : answer m (.call args names) site s =
        answerWithin (questionDepth - 1) v (.call (.single (some self) :: args) (methodNames args names)) site s :=
      answerWithin_call_method method site (questionDepth - 1)
    rw [whole]
    exact (answerWithin_call form site (questionDepth - 2)).trans
      (answerWithin_call form site (questionDepth - 1)).symm

/-- A host with the types of tuples and dictionaries. -/
def starredHost : Host where
  objects := #[⟨.type "tuple" "" .tuple {}, .type⟩, ⟨.type "dict" "" .dict {}, .type⟩]
  types := [(.tuple, ⟨0⟩), (.dict, ⟨1⟩)]

/-- A function with parameters of all kinds, two of them of one name. -/
def definingStarred : List Operation :=
  let params : List Param :=
    [{ name := "a" }, { name := "rest", kind := .rest }, { name := "b" }, { name := "a" },
      { name := "more", kind := .namedRest }]
  [.addModule "m" "/m.py", .replaceTree ⟨0⟩ (some ⟨{}, [.functionDef {} "f" params [] []]⟩),
    .analyzeEntry ⟨0⟩ .never]

def starred : Session := afterAll definingStarred (after load (blank {} starredHost []))

/-- Five arguments, the second of which has a name. -/
def fiveArgs : List ValueSet := [0, 1, 2, 3, 4].map fun i => .single (some ⟨i⟩)

def starredSite : Site := ⟨⟨.call, { id := ⟨9⟩ }⟩, ⟨0⟩⟩

def calledStarred : Session := after (answer ⟨1⟩ (.call fiveArgs ["", "b"]) starredSite) starred

/-- What the parameters and the tuple for left-over arguments hold after the call. -/
theorem called_starred :
    ((starred.form ⟨1⟩).kind = .function ∧ (((starred.form ⟨1⟩).code?.bind (·.body)).isSome = true)) ∧
    Fitting definingStarred (after load (blank {} starredHost [])) ∧
    starred.queue.jobs = [] ∧ calledStarred.queue.jobs ≠ [] ∧
    (calledStarred.form ⟨1⟩).code?.bind (·.unit) = some ⟨1⟩ ∧ calledStarred.isAlive ⟨1⟩ = true ∧
    (["a", "rest", "b", "more"].map fun name =>
      (calledStarred.findName? ⟨1⟩ name).map fun x => (calledStarred.types x).items) =
        [some [⟨0⟩, ⟨3⟩], some [⟨3⟩], some [⟨1⟩, ⟨2⟩], some [⟨5⟩]] ∧
    (calledStarred.value ⟨1⟩).kept? .rest = some ⟨3⟩ ∧
    ((calledStarred.form ⟨3⟩).record? .elements).map (fun x => (calledStarred.types x).items) = some [⟨4⟩] := by
  decide +kernel

/-- The parameters of one name share what they get, and the last argument is left over. -/
theorem call_binds_starred : ∃ f news t q, starred.form ⟨1⟩ = .function f ∧
    bindArguments ⟨1⟩ f fiveArgs ["", "b"] starred = .ok news t ∧
    Binding ⟨1⟩ f fiveArgs ["", "b"] news starred t ∧ news = true ∧
    answer ⟨1⟩ (.call fiveArgs ["", "b"]) starredSite starred = .ok (t.types f.returns) q ∧
    q.job ⟨1⟩ ∈ q.queue.jobs ∧
    (["a", "rest", "b", "more"].map fun name => (q.findName? ⟨1⟩ name).map fun x => (q.types x).items) =
      [some [⟨0⟩, ⟨3⟩], some [⟨3⟩], some [⟨1⟩, ⟨2⟩], some [⟨5⟩]] := by
  obtain ⟨⟨kind, has⟩, fits, idle, busy, unit, alive, types, -⟩ := called_starred
  have made : create {} starredHost [] = .ok (after load (blank {} starredHost [])) := create_unasked _ _
  obtain ⟨f, form⟩ : ∃ f, starred.form ⟨1⟩ = .function f := by
    cases form : starred.form ⟨1⟩ with
    | function f => exact ⟨f, rfl⟩
    | _ => rw [form] at kind; cases kind
  have moment : Moment starred starred := .between .refl
  obtain ⟨news, t, q, binds, binding, run, -, quiet, queued⟩ :=
    (call_binds_every_argument made fits moment form starredSite).1 fiveArgs ["", "b"]
  have ends : calledStarred = q := after_of_ok run
  rw [ends] at busy unit alive types
  have changed : news = true := by
    cases news with
    | true => rfl
    | false => exact absurd idle (quiet rfl ▸ busy)
  rw [form] at has
  obtain ⟨body, is⟩ := Option.isSome_iff_exists.1 has
  obtain ⟨u, own, waits⟩ := queued changed body is
  rw [own] at unit
  cases unit
  exact ⟨f, news, t, q, form, binds, binding, changed, run, waits alive, types⟩

end Typeflow.Session
