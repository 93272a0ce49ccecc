import Typeflow.Proofs.Alternatives.InTurn
import Typeflow.Proofs.Identity.Instances
import Typeflow.Proofs.Lookup
import Typeflow.Proofs.Settled

/-! What a call of `super` stands for: one value for each class that it is given, made the first time that there is
one, with the instances that there are by then. The node keeps these values, whatever the call is given later. -/
namespace Typeflow.Session

/-- What a `super` with arguments is given. -/
def Arguments.explicitSuper (a : Arguments) : SuperArguments :=
  match a.sets with
  | [classes] => { classes }
  | [classes, instances] => { classes, instances }
  | _ => {}

/-- What a `super` yields for what it is given. -/
def superOf (given : SuperArguments) (site : Site) : Analysis ValueSet := do
  let classes := (← get).userClasses given.classes
  if classes.isEmpty then return .empty
  siteValue site do
    ValueSet.joinM classes fun cls => return .single (← newSuper cls given.instances)

variable {α β : Type} {s t r : Session} {site : Site} {a : Arguments} {given : SuperArguments} {values : ValueSet}
  {cls self f w : ValueId} {instances : ValueSet} {c : UserClass} {name : String} {depth : Nat}

private theorem superAt_explicit (some_ : a.sets ≠ []) (s : Session) : superAt a site s = superOf a.explicitSuper site s := by
  cases ha : a.sets with
  | nil => exact absurd ha some_
  | cons first more => rcases more with _ | ⟨second, _ | ⟨third, more⟩⟩ <;> simp only [superAt, Arguments.explicitSuper, ha] <;> rfl

private theorem superAt_implicit (none : a.sets = []) (v3 : s.isV3 = true) (implicit : implicitSuper site s = .ok given t) :
    superAt a site s = superOf given site t := by
  have rule : superAt a site s = (implicitSuper site >>= fun given => superOf given site) s := by
    simp only [superAt, none, read_run, v3, if_true]
    rfl
  rw [rule, bind_of_ok implicit]

section Kept

/-- What is kept for the node is the answer. -/
theorem siteValue_kept (kept : s.slot (s.scopeAt site) site.node.id = some values) (make : Analysis ValueSet) :
    siteValue site make s = .ok values s := by
  replace kept : (s.scope (s.scopeAt site)).nodeValues.lookup site.node.id = some values := kept
  have found : nodeValueAnd (s.scopeAt site) site.node.id (do return (← make, ())) s = .ok (values, none) s := by
    simp only [nodeValueAnd, read_run, kept]
    rfl
  simp only [siteValue, read_run, nodeValue, bind_of_ok found]
  rfl

/-- What is made for the node is kept for it. -/
theorem siteValue_made {make : Analysis ValueSet} (free : s.slot (s.scopeAt site) site.node.id = none)
    (made : make (after (setNodeValue (s.scopeAt site) site.node.id .empty) s) = .ok values t) :
    siteValue site make s = .ok values (after (setNodeValue (s.scopeAt site) site.node.id values) t) := by
  replace free : (s.scope (s.scopeAt site)).nodeValues.lookup site.node.id = none := free
  let reserved := after (setNodeValue (s.scopeAt site) site.node.id .empty) s
  have inner : (do return (← make, ()) : Analysis (ValueSet × Unit)) reserved = .ok (values, ()) t := bind_of_ok made
  have kept : nodeValueAnd (s.scopeAt site) site.node.id (do return (← make, ())) s =
      .ok (values, some ()) (after (setNodeValue (s.scopeAt site) site.node.id values) t) := by
    simp only [nodeValueAnd, read_run, free]
    exact bind_of_ok inner
  simp only [siteValue, read_run, nodeValue, bind_of_ok kept]
  rfl

private theorem superOf_kept (kept : s.slot (s.scopeAt site) site.node.id = some values)
    (some_ : s.userClasses given.classes ≠ []) : superOf given site s = .ok values s := by
  simp only [superOf, read_run, List.isEmpty_iff, if_neg some_]
  exact siteValue_kept kept _

private theorem superOf_none (none : s.userClasses given.classes = []) : superOf given site s = .ok .empty s := by
  simp only [superOf, read_run, none]
  rfl

/-- Whatever keeps nothing for the node and defines nothing there leaves what is kept for it. -/
theorem Ready.slot_stays {L : Licence} (h : Ready L s) (steps : Steps L s t) {n : NodeId} (apart : ¬ L.keep n)
    (other : ∀ u body, L.define u body → body.node.id ≠ n) (k : ScopeId) : t.slot k n = s.slot k n := by
  refine h.induct (P := fun t => t.slot k n = s.slot k n) steps rfl fun r t ready step same => ?_
  cases step.shape ready.sane.coherent with
  | still ht => rw [slot, ht.nodes k n apart, ← same, slot]
  | starts v e body scope place q code hq _ enqueued =>
    rw [slot, enqueued.nodes k n apart, ← slot, slot_of_scopes hq.scopes, same]
  | defines u body licensed ht =>
    obtain ⟨hu, -⟩ := ready.sound u body licensed
    rw [slot, ht.nodes (ready.sane.coherent.unitScope u hu), if_neg fun own => other u body licensed own.2.symm, ← slot,
      same]

end Kept

section Made

private theorem unionAll_singles (ws : List ValueId) :
    ValueSet.unionAll (ws.map fun w => .single (some w)) 0 = .ofList (ws.map some) := by
  rw [ValueSet.eq_iff_members, ValueSet.members_unionAll, ValueSet.capAt_zero, ValueSet.sup_members,
    if_neg (by simp [ValueSet.single]), ValueSet.members_ofList, ValueSet.listed, List.flatMap_map]
  simp [ValueSet.single, ValueSet.items, ValueList.insert, insertValue, ValueList.nil, List.reduceOption]

/-- Each class gets a value of its own. -/
theorem inTurn_newSuper (classes : List ValueId) (instances : ValueSet) (s : Session) :
    ∃ ws t, InTurn (fun cls => return .single (some (← newSuper cls instances))) classes s
        (ws.map fun w => .single (some w)) t ∧
      t.scopes = s.scopes ∧ t.units = s.units ∧ (∀ v, v.index < s.values.size → t.form v = s.form v) ∧
      List.Forall₂ (fun cls w => t.form w = .super cls instances) classes ws := by
  induction classes generalizing s with
  | nil => exact ⟨[], s, .done s, rfl, rfl, fun _ _ => rfl, .nil⟩
  | cons cls rest ih =>
    let made : Session := s.withValue ⟨"super", "super", .instance_, .super cls instances, {}, []⟩
    obtain ⟨ws, t, turns, scopes, units, old, forms⟩ := ih made
    have size : made.values.size = s.values.size + 1 := Array.size_push _
    have own : made.form s.nextValue = .super cls instances := (form_push s _ _).trans (if_pos rfl)
    rw [size] at old
    refine ⟨s.nextValue :: ws, t, .next (r := made) rfl turns, scopes, units, fun v hv => ?_, .cons ?_ forms⟩
    · rw [old v (Nat.lt_succ_of_lt hv)]
      exact (form_push s _ v).trans (if_neg (Nat.ne_of_lt hv))
    · rw [old s.nextValue (Nat.lt_succ_self _), own]

/-- The first time that there is a class, each gets a value with the instances of that time. -/
theorem superOf_made (free : s.slot (s.scopeAt site) site.node.id = none)
    (there : (s.scopeAt site).index < s.scopes.size) (some_ : s.userClasses given.classes ≠ []) :
    ∃ ws t, superOf given site s = .ok (.ofList (ws.map some)) t ∧ t.scopeAt site = s.scopeAt site ∧
      t.slot (s.scopeAt site) site.node.id = some (.ofList (ws.map some)) ∧
      List.Forall₂ (fun cls w => t.form w = .super cls given.instances) (s.userClasses given.classes) ws := by
  let reserved := after (setNodeValue (s.scopeAt site) site.node.id .empty) s
  obtain ⟨ws, t, turns, scopes, units, -, forms⟩ :=
    inTurn_newSuper (s.userClasses given.classes) given.instances reserved
  have made := ((unites_joinM _ _ reserved).yields _ t).2 ⟨_, turns, rfl⟩
  rw [unionAll_singles] at made
  refine ⟨ws, after (setNodeValue (s.scopeAt site) site.node.id (.ofList (ws.map some))) t, ?_, ?_, ?_, forms⟩
  · simp only [superOf, read_run, List.isEmpty_iff, if_neg some_]
    exact siteValue_made free made
  · show (t.unit site.unit).scope = (s.unit site.unit).scope
    rw [unit, units]
    rfl
  · have still : (s.scopeAt site).index < t.scopes.size := by
      rw [scopes]
      simpa [reserved, setNodeValue] using there
    rw [slot, lookup_setNodeValue, if_pos ⟨rfl, rfl, still⟩]

end Made

def Site.licence (site : Site) : Licence := ⟨(· = site.node.id), fun _ _ => False⟩

/-- What is asked at the site leads from one session to the other. -/
abbrev Leads (site : Site) (s t : Session) : Prop := Touches site.licence .all s t

section Bound

/-- A list whose items come one by one from others comes from a list of these. -/
theorem forall₂_map_right {γ : Type} {R : α → β → Prop} {P : α → γ → Prop} {g : γ → β} {as : List α} {bs : List β}
    (comes : ∀ a b, R a b → ∃ c, b = g c ∧ P a c) (h : List.Forall₂ R as bs) :
    ∃ cs, bs = cs.map g ∧ List.Forall₂ P as cs := by
  induction h with
  | nil => exact ⟨[], rfl, .nil⟩
  | cons first _ ih =>
    obtain ⟨c, rfl, hc⟩ := comes _ _ first
    obtain ⟨cs, rfl, hcs⟩ := ih
    exact ⟨c :: cs, rfl, .cons hc hcs⟩

/-- Items that are asked in turn are asked on the way. -/
theorem InTurn.leads {g : α → Analysis ValueSet} {Q : ValueSet → Prop} {items : List α} {answers : List ValueSet}
    (turns : InTurn g items s answers t) (site : Site) (roams : ∀ a ∈ items, Roams site.licence .all (g a) Q) :
    Leads site s t ∧
      List.Forall₂ (fun a found => ∃ r q, Leads site s r ∧ g a r = .ok found q ∧ Leads site q t) items answers := by
  induction turns with
  | done s => exact ⟨.refl, .nil⟩
  | @next a rest s r t values answers first others ih =>
    obtain ⟨later, asked⟩ := ih fun b mem => roams b (List.mem_cons_of_mem a mem)
    have now : Leads site s r := by
      have led := (roams a List.mem_cons_self s (Realm.closed_all s)).1
      rwa [after_of_ok first] at led
    refine ⟨now.trans later, .cons ⟨s, r, .refl, first, later⟩ (asked.imp fun b found => ?_)⟩
    rintro ⟨p, q, before, run, after_⟩
    exact ⟨p, q, now.trans before, run, after_⟩

/-- A function is bound to the instance for good. -/
theorem form_of_boundMethod (reliable : Reliable s) {found : Found} (run : boundMethod f self s = .ok found t) :
    ∃ w, found = some w ∧ w.index < t.values.size ∧ t.form w = .boundMethod f self := by
  have led : Reliable t := by
    have := reliable.of_roams (L := noLicence) (.boundMethod trivial trivial : Roams noLicence .all (boundMethod f self) _)
    rwa [after_of_ok run] at this
  have kept : t.boundMethods.find? (f, self) = some found :=
    show (boundField.read t).find? (f, self) = _ from
      CacheField.find?_of_recall (fun _ _ => rfl) (beq_self_eq_true _) run
  cases found with
  | none => exact absurd kept (led.rest.bounds _)
  | some w => exact ⟨w, rfl, led.truthful.bounds f self w kept⟩

/-- What becomes of a member that is found in a base: a function is bound to each of the instances, and anything else
stays as it is. -/
def PassedAs (site : Site) (instances : ValueSet) (s t : Session) (f : ValueId) (found : ValueSet) : Prop :=
  ∃ r, Leads site s r ∧ Leads site r t ∧
    if r.bindsToInstance f then
      ∃ bound : List ValueId, found = .ofList (bound.map some) ∧
        List.Forall₂ (fun self x => t.form x = .boundMethod f self) instances.items bound
    else found = .single (some f)

theorem Leads.fixes (leads : Leads site s t) : Fixes s t := Fixes.spans.all (fun _ _ => Fixes.spans.touch) leads

private theorem passedAs_of_run (reliable : Reliable s) (before : Leads site s r) {q : Session}
    (run : throughSuper instances f r = .ok values q) (later : Leads site q t) : PassedAs site instances s t f values := by
  have passes : Roams site.licence .all (throughSuper instances f) _ := Roams.throughSuper (Realm.set_all _) trivial
  have led : Leads site r q := by
    have now := (passes r (Realm.closed_all r)).1
    rwa [after_of_ok run] at now
  refine ⟨r, before, led.trans later, ?_⟩
  rw [throughSuper, read_run] at run
  cases binds : r.bindsToInstance f with
  | false =>
    rw [binds] at run
    cases run
    rfl
  | true =>
    rw [binds] at run
    obtain ⟨answers, turns, rfl⟩ := ((unites_joinM _ _ r).yields values q).1 run
    obtain ⟨-, each⟩ := turns.leads site (Q := fun _ => True) fun self _ =>
      .bind (Roams.boundMethod trivial trivial) fun _ _ => .pure trivial
    have one : ∀ self found, (∃ p k, Leads site r p ∧
        (do return .single (← boundMethod f self) : Analysis ValueSet) p = .ok found k ∧ Leads site k q) →
        ∃ x, found = .single (some x) ∧ t.form x = .boundMethod f self := by
      rintro self found ⟨p, k, first, asked, rest⟩
      obtain ⟨bound, k', made, ⟨⟩⟩ := bind_eq_ok asked
      obtain ⟨x, rfl, there, form⟩ := form_of_boundMethod ((reliable.of_touches before).of_touches first) made
      refine ⟨x, rfl, ?_⟩
      rw [(Leads.fixes (rest.trans later)).shared x there (by rw [form]; rfl), form]
    obtain ⟨bound, rfl, forms⟩ := forall₂_map_right one each
    exact ⟨bound, unionAll_singles bound, forms⟩

end Bound

section Lookup

/-- What bases have under the name together, each of it as it is passed on. -/
def FindsInBases (depth : Nat) (site : Site) (name : String) (bases : List ValueId) (instances : ValueSet) (s : Session)
    (found : ValueSet) (t : Session) : Prop :=
  ∃ finds : List (ValueSet × List ValueSet),
    List.Forall₂ (fun base find =>
      (∃ r q, Leads site s r ∧ answerWithin depth base (.member name) site r = .ok find.1 q ∧ Leads site q t) ∧
        List.Forall₂ (PassedAs site instances s t) find.1.items find.2) bases finds ∧
    found = .unionAll (finds.map Prod.snd).flatten 0

def foundIn (ask : Ask) (instances : ValueSet) (name : String) (site : Site) (base : ValueId) : Analysis ValueSet := do
  ValueSet.joinM (← ask base (.member name) site).items (throughSuper instances)

private theorem roams_foundIn (depth : Nat) (instances : ValueSet) (name : String) (base : ValueId) :
    Roams site.licence .all (foundIn (answerWithin depth) instances name site base) fun _ => True :=
  .bind (Roams.answerWithin depth rfl base (.member name) trivial trivial) fun _ _ =>
    .mono (.joinM fun _ _ => Roams.throughSuper (Realm.set_all _) trivial) fun _ _ => trivial

/-- The bases of the class are asked in turn. -/
theorem lookup_of_super (hv : s.form w = .super cls instances) (of : s.form cls = .userClass c) (depth : Nat)
    (name : String) (site : Site) :
    answerWithin (depth + 1) w (.member name) site s =
      ValueSet.joinM (s.types c.bases).items (foundIn (answerWithin depth) instances name site)
        (after (addReader c.bases site.unit) s) := by
  have reads : readAt c.bases site s = .ok (s.types c.bases) (after (addReader c.bases site.unit) s) := by
    have same := (Peeks.addReader c.bases site.unit s).types c.bases
    rw [← same]
    rfl
  show memberOf (answerWithin depth) w name site s = _
  rw [memberOf, read_run, hv]
  dsimp only
  rw [superMember, read_run, of]
  exact bind_of_ok reads

private theorem leads_addReader (x : VarId) (s : Session) : Leads site s (after (addReader x site.unit) s) :=
  (Roams.addReader x site.unit s (Realm.closed_all s)).1

private theorem findsInBases_of_run (reliable : Reliable s) (hv : s.form w = .super cls instances)
    (of : s.form cls = .userClass c) (run : answerWithin (depth + 1) w (.member name) site s = .ok values t) :
    FindsInBases depth site name (s.types c.bases).items instances s values t := by
  rw [lookup_of_super hv of] at run
  obtain ⟨answers, turns, rfl⟩ := ((unites_joinM _ _ _).yields _ _).1 run
  obtain ⟨-, each⟩ := turns.leads site fun base _ => roams_foundIn depth instances name base
  have start : Leads site s (after (addReader c.bases site.unit) s) := leads_addReader c.bases s
  have one : ∀ base found, (∃ r q, Leads site (after (addReader c.bases site.unit) s) r ∧
      foundIn (answerWithin depth) instances name site base r = .ok found q ∧ Leads site q t) →
      ∃ find : ValueSet × List ValueSet, found = .unionAll find.2 0 ∧
        (∃ r q, Leads site s r ∧ answerWithin depth base (.member name) site r = .ok find.1 q ∧ Leads site q t) ∧
        List.Forall₂ (PassedAs site instances s t) find.1.items find.2 := by
    rintro base found ⟨r, q, before, run, later⟩
    obtain ⟨members, p, asked, joined⟩ := bind_eq_ok run
    obtain ⟨parts, passes, rfl⟩ := ((unites_joinM _ _ p).yields found q).1 joined
    obtain ⟨through, passed⟩ := passes.leads site fun f _ => Roams.throughSuper (Realm.set_all _) trivial
    have looked : Leads site r p := by
      have asks : Roams site.licence .all (answerWithin depth base (.member name) site) _ :=
        Roams.answerWithin depth rfl base (.member name) trivial trivial
      have led := (asks r (Realm.closed_all r)).1
      rwa [after_of_ok asked] at led
    refine ⟨(members, parts), rfl, ⟨r, p, start.trans before, asked, through.trans later⟩, passed.imp fun f part => ?_⟩
    rintro ⟨k, l, first, run, rest⟩
    exact passedAs_of_run reliable ((start.trans before).trans (looked.trans first)) run (rest.trans later)
  obtain ⟨finds, rfl, forms⟩ := forall₂_map_right one each
  refine ⟨finds, forms, ?_⟩
  rw [← ValueSet.unionAll_flatten, List.map_map]
  rfl

/-- Only a lookup in a base fails. -/
theorem lookup_of_super_error (hv : s.form w = .super cls instances) (of : s.form cls = .userClass c) {e : Fault}
    (run : answerWithin (depth + 1) w (.member name) site s = .error e t) :
    ∃ base ∈ (s.types c.bases).items, ∃ r, Leads site s r ∧ answerWithin depth base (.member name) site r = .error e t := by
  rw [lookup_of_super hv of] at run
  obtain ⟨before, base, more, answers, r, split, turns, failed⟩ := ((unites_joinM _ _ _).fails _ _).1 run
  obtain ⟨led, -⟩ := turns.leads site fun base _ => roams_foundIn depth instances name base
  refine ⟨base, by simp [split], r, (leads_addReader c.bases s).trans led, ?_⟩
  cases asked : answerWithin depth base (.member name) site r with
  | error e' q =>
    rw [foundIn, bind_of_error asked] at failed
    cases failed
    rfl
  | ok members q =>
    rw [foundIn, bind_of_ok asked] at failed
    obtain ⟨all, through⟩ := Total.joinM (fun f => total_throughSuper instances f) members.items q
    rw [through] at failed
    cases failed

end Lookup

section Implicit

/-- In a method with parameters, a `super` without arguments is given the class and the instance that it has. -/
theorem superAt_in_method {b : Arguments} {function : ValueId} {g : UserFunction} (none : a.sets = [])
    (some_ : b.sets = [.single (some cls), .single (some self)]) (v3 : s.isV3 = true)
    (inside : (s.enclosing (s.scopeAt site)).findSome? s.methodScope? = some (some cls, some function))
    (of : s.form cls = .userClass c) (method : s.form function = .function g) (params : g.params ≠ [])
    (kept : s.exemplar? cls = some self) : superAt a site s = superAt b site s := by
  have made : instancesOf cls s = .ok (.single (some self)) s := by
    have run : userInstance cls s = .ok (some self) s := by
      rw [userInstance, read_run, show (s.value cls).form = _ from of]
      exact bind_of_ok (keptOr_run_of_some kept _)
    rw [instancesOf, read_run, of]
    exact bind_of_ok run
  have implicit : implicitSuper site s = .ok ⟨.single (some cls), .single (some self)⟩ s := by
    rw [implicitSuper, read_run, inside]
    simp only [of, method, List.isEmpty_iff, if_neg params]
    exact bind_of_ok made
  rw [superAt_implicit none v3 implicit, superAt_explicit (by simp [some_]), Arguments.explicitSuper, some_]

end Implicit

def firstParam? (s : Session) (function : ValueId) : Option VarId := do
  match s.form function with
  | .function g => s.paramRecord g (← g.params.head?).1
  | _ => none

private theorem function_of_firstParam? {function : ValueId} {x : VarId} (first : s.firstParam? function = some x) :
    ∃ g, s.form function = .function g ∧ g.params ≠ [] := by
  rw [firstParam?] at first
  cases form : s.form function with
  | function g =>
    refine ⟨g, rfl, fun none => ?_⟩
    rw [form] at first
    dsimp only at first
    rw [none] at first
    cases first
  | _ =>
    rw [form] at first
    cases first

/-- A call of `super` with arguments answers with one value for each class of the program that it is given, made when
there is one for the first time, and bound to the instances that it is given then. From then on the node keeps these
values: whatever is evaluated elsewhere leaves them, and the call answers with them, whichever classes and instances it
is given. A lookup through such a value finds what the bases of its class have, functions bound to each of its
instances, and fails only where the lookup in a base does. In a method with parameters the call without arguments does
the same as the one with the class and the instance of the class, and so as the one with the class and the first
parameter if this has the instance and nothing else. -/
theorem super_keeps_first_arguments (reliable : Reliable s) (site : Site) :
    (∀ a : Arguments, a.sets ≠ [] → s.userClasses a.explicitSuper.classes = [] → superAt a site s = .ok .empty s) ∧
    (∀ a : Arguments, a.sets ≠ [] → s.userClasses a.explicitSuper.classes ≠ [] →
      (s.scopeAt site).index < s.scopes.size → s.slot (s.scopeAt site) site.node.id = none →
      ∃ ws t, superAt a site s = .ok (.ofList (ws.map some)) t ∧ t.scopeAt site = s.scopeAt site ∧
        t.slot (s.scopeAt site) site.node.id = some (.ofList (ws.map some)) ∧
        List.Forall₂ (fun cls w => t.form w = .super cls a.explicitSuper.instances)
          (s.userClasses a.explicitSuper.classes) ws) ∧
    (∀ (a : Arguments) found, a.sets ≠ [] → s.userClasses a.explicitSuper.classes ≠ [] →
      s.slot (s.scopeAt site) site.node.id = some found → superAt a site s = .ok found s) ∧
    (∀ L t, Ready L s → Steps L s t → ¬ L.keep site.node.id →
      (∀ u body, L.define u body → body.node.id ≠ site.node.id) →
      ∀ k, t.slot k site.node.id = s.slot k site.node.id) ∧
    (∀ w cls instances c, s.form w = .super cls instances → s.form cls = .userClass c → ∀ depth name,
      (∀ found t, answerWithin (depth + 1) w (.member name) site s = .ok found t →
        FindsInBases depth site name (s.types c.bases).items instances s found t) ∧
      ∀ e t, answerWithin (depth + 1) w (.member name) site s = .error e t →
        ∃ base ∈ (s.types c.bases).items, ∃ r, Leads site s r ∧
          answerWithin depth base (.member name) site r = .error e t) ∧
    ∀ (a b : Arguments) cls self function c g, a.sets = [] → s.isV3 = true →
      (s.enclosing (s.scopeAt site)).findSome? s.methodScope? = some (some cls, some function) →
      s.form cls = .userClass c → s.form function = .function g → g.params ≠ [] →
      (b.sets = [.single (some cls), .single (some self)] → s.exemplar? cls = some self →
        superAt a site s = superAt b site s) ∧
      ∀ x, s.firstParam? function = some x → s.types x = .single (some self) →
        (s.form self).instanceOf? = some cls → OneInstance s → b.sets = [.single (some cls), s.types x] →
        superAt a site s = superAt b site s := by
  refine ⟨fun a some_ none => ?_, fun a some_ classes there free => ?_, fun a found some_ classes kept => ?_, ?_, ?_, ?_⟩
  · rw [superAt_explicit some_, superOf_none none]
  · rw [superAt_explicit some_]
    exact superOf_made free there classes
  · rw [superAt_explicit some_, superOf_kept kept classes]
  · exact fun L t ready steps apart other => ready.slot_stays steps apart other
  · intro w cls instances c hv of depth name
    exact ⟨fun found t => findsInBases_of_run reliable hv of, fun e t => lookup_of_super_error hv of⟩
  · intro a b cls self function c g none v3 inside of method params
    refine ⟨fun some_ => superAt_in_method none some_ v3 inside of method params, fun x _ holds form one some_ => ?_⟩
    rw [holds] at some_
    exact superAt_in_method none some_ v3 inside of method params (one self cls form)

/-- A class with a method, and a class below it whose method calls the one that a `super` with these arguments finds. An
instance of the class below has its method called. -/
def superInMethod (args : List Expr) : List Operation :=
  let param : Param := { name := "self" }
  let f : Stmt := .functionDef {} "f" [param] [.ret {} (.literal {} (.int 1))] []
  let found : Expr := .attribute {} (.call {} (.name {} "super") args (args.map fun _ => "")) "f"
  let g : Stmt := .functionDef {} "g" [param] [.ret {} (.call {} found [] [])] []
  let c : Stmt := .assign {} [.name {} "c"] (.call {} (.name {} "C") [] [])
  let x : Stmt := .assign {} [.name {} "x"] (.call {} (.attribute {} (.name {} "c") "g") [] [])
  [.addModule "m" "/m.py",
    .replaceTree ⟨0⟩ (some ⟨{}, [.classDef {} "B" [] [f], .classDef {} "C" [.name {} "B"] [g], c, x]⟩),
    .analyzeEntry ⟨0⟩ .never]

/-- The call with the class and the first parameter, and the call without arguments. -/
def givenSelf : Session := afterAll (superInMethod [.name {} "C", .name {} "self"]) (after load (blank {} superHost []))

def givenNothing : Session := afterAll (superInMethod []) (after load (blank {} superHost []))

def superSite : Site := ⟨⟨.call, { id := ⟨11⟩ }⟩, ⟨3⟩⟩

/-- What the call has kept when all is analysed, and what it finds. -/
theorem analysed_super :
    (givenSelf.queue.jobs = [] ∧ givenNothing.queue.jobs = []) ∧
    ((givenSelf.findName? ⟨3⟩ "self").map fun x => (givenSelf.types x).items) = some [⟨3⟩] ∧
    ((givenNothing.findName? ⟨3⟩ "self").map fun x => (givenNothing.types x).items) = some [⟨3⟩] ∧
    (givenSelf.scopeAt superSite = ⟨3⟩ ∧ givenSelf.userClasses (.single (some ⟨2⟩)) = [⟨2⟩]) ∧
    givenSelf.slot ⟨3⟩ superSite.node.id = some (.single (some ⟨8⟩)) ∧
    givenNothing.slot ⟨3⟩ superSite.node.id = some (.single (some ⟨8⟩)) ∧
    yield? (answer ⟨8⟩ (.member "f") superSite) givenSelf = some .empty ∧
    yield? (answer ⟨8⟩ (.member "f") superSite) givenNothing = some (.single (some ⟨12⟩)) ∧
    (givenNothing.value ⟨12⟩).kind = .boundMethod := by
  decide +kernel

/-- When the call is evaluated again, now with the instance, it answers with the value that it has, and a call without
arguments would do the same. -/
theorem super_answers_with_first_value :
    superAt ⟨[.single (some ⟨2⟩), .single (some ⟨3⟩)], ["", ""]⟩ superSite givenSelf =
      .ok (.single (some ⟨8⟩)) givenSelf ∧
    ∃ x, givenSelf.findName? ⟨3⟩ "self" = some x ∧ superAt ⟨[], []⟩ superSite givenSelf =
      superAt ⟨[.single (some ⟨2⟩), givenSelf.types x], ["", ""]⟩ superSite givenSelf := by
  have reliable : Reliable givenSelf := (Reliable.create (create_unasked _ _)).afterAll _
  have one : OneInstance givenSelf := (OneInstance.create (create_unasked _ _)).afterAll _
  obtain ⟨-, -, -, ⟨scope, classes⟩, kept, -⟩ := analysed_super
  have some_ : givenSelf.userClasses (.single (some ⟨2⟩)) ≠ [] := by
    rw [classes]
    nofun
  rw [← scope] at kept
  obtain ⟨self, holds, of, v3, inside, kind, first⟩ : givenSelf.findName? ⟨3⟩ "self" = some ⟨13⟩ ∧
      givenSelf.types ⟨13⟩ = .single (some ⟨3⟩) ∧ (givenSelf.form ⟨3⟩).instanceOf? = some ⟨2⟩ ∧ givenSelf.isV3 = true ∧
      (givenSelf.enclosing (givenSelf.scopeAt superSite)).findSome? givenSelf.methodScope? = some (some ⟨2⟩, some ⟨4⟩) ∧
      (givenSelf.form ⟨2⟩).kind = .userClass ∧
      givenSelf.firstParam? ⟨4⟩ = some ⟨13⟩ := by
    decide +kernel
  have laws := super_keeps_first_arguments reliable superSite
  refine ⟨laws.2.2.1 _ _ (by simp) some_ kept, ⟨13⟩, self, ?_⟩
  cases cls : givenSelf.form ⟨2⟩ with
  | userClass c =>
    obtain ⟨g, function, params⟩ := function_of_firstParam? first
    exact (laws.2.2.2.2.2 ⟨[], []⟩ _ ⟨2⟩ ⟨3⟩ ⟨4⟩ c g rfl v3 inside cls function params).2 ⟨13⟩ first holds of one rfl
  | _ =>
    rw [cls] at kind
    cases kind

/-- When all is analysed the parameter has the instance. The call without arguments finds the method of the base, bound
to the instance, and the call with the class and the parameter finds nothing. -/
theorem super_loses_later_instances :
    (givenSelf.queue.jobs = [] ∧ givenNothing.queue.jobs = []) ∧
    ((givenSelf.findName? ⟨3⟩ "self").map fun x => (givenSelf.types x).items) = some [⟨3⟩] ∧
    ¬ ∀ v name, givenSelf.slot ⟨3⟩ superSite.node.id = some (.single (some v)) →
      givenNothing.slot ⟨3⟩ superSite.node.id = some (.single (some v)) →
      yield? (answer v (.member name) superSite) givenSelf = yield? (answer v (.member name) superSite) givenNothing := by
  obtain ⟨drained, self, -, -, explicit, implicit, nothing, method, -⟩ := analysed_super
  refine ⟨drained, self, fun same => ?_⟩
  have agree := same ⟨8⟩ "f" explicit implicit
  rw [nothing, method] at agree
  cases agree

end Typeflow.Session
