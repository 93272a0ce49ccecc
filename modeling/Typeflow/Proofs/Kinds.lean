import Typeflow.Proofs.Identity
import Typeflow.Proofs.Resources.Declare

/-! What is kept for the objects of the host is of their kind: for types classes and for modules modules of the
host, unless the object passes for a container of members. -/
namespace Typeflow

/-- What stands for no object is kept for neither a type nor a module. -/
theorem Host.Suits.of_free {host : Host} {o : ObjectId} {form other : Form} (suits : host.Suits o form)
    (free : form.object? = none) : host.Suits o other := by
  apply of_other
  · intro type
    rcases suits.type type with rfl | ⟨-, rfl⟩ <;> cases free
  · intro module
    rcases suits.module module with rfl | ⟨-, rfl⟩ <;> cases free

namespace Session

variable {host : Host} {s t q : Session}

/-- The host has what it had at first, its references are typed, and what is kept for its objects suits them. -/
structure Faithful (host : Host) (s : Session) : Prop where
  grows : host.Grows s.host
  typed : s.WellTyped
  hosted : Hosted s
  suits : ∀ o v, s.objectValues.find? o = some (some v) → host.Suits o (s.form v)

def KeepsFaith (host : Host) (s t : Session) : Prop := Faithful host s → Faithful host t

namespace KeepsFaith

theorem refl (s : Session) : KeepsFaith host s s := id

theorem trans (h : KeepsFaith host s t) (g : KeepsFaith host t q) : KeepsFaith host s q := g ∘ h

theorem of_all {T : Session → Session → Prop} (h : ∀ s t, T s t → KeepsFaith host s t)
    (steps : Relation.ReflTransGen T s t) : KeepsFaith host s t := by
  induction steps with
  | refl => exact refl s
  | tail _ step ih => exact ih.trans (h _ _ step)

/-- Nothing is kept that was not kept before, and values stay what they are. -/
theorem of_forms (endures : Endures s t) (hosted : Hosted s → Hosted t)
    (objects : ∀ o v, t.objectValues.find? o = some (some v) → s.objectValues.find? o = some (some v))
    (forms : ∀ v, v.index < s.values.size → t.form v = s.form v ∨ (s.form v).object? = none) :
    KeepsFaith host s t := by
  intro faithful
  refine ⟨faithful.grows.trans endures.host, endures.wellTyped.2 faithful.typed, hosted faithful.hosted, ?_⟩
  intro o v kept
  have suits := faithful.suits o v (objects o v kept)
  have there := (faithful.hosted o v (objects o v kept)).1
  rcases forms v there with same | free
  · rwa [same]
  · exact suits.of_free free

theorem of_same (endures : Endures s t) (values : t.values = s.values)
    (objects : t.objectValues = s.objectValues) : KeepsFaith host s t := by
  have forms : ∀ v, t.form v = s.form v := fun v => by rw [form, form, value, value, values]
  refine of_forms endures (fun hosted o v kept => ?_) (fun o v kept => by rwa [← objects])
    fun v _ => .inl (forms v)
  rw [values, forms]
  exact hosted o v (by rwa [← objects])

/-- A value is made that is kept for no object. -/
theorem of_push {value : Value} (endures : Endures s t) (hosted : Hosted s → Hosted t)
    (values : t.values = s.values.push value) (objects : t.objectValues = s.objectValues) :
    KeepsFaith host s t := by
  refine of_forms endures hosted (fun o v kept => by rwa [← objects]) fun v there => .inl ?_
  rw [form, Session.value, values]
  exact (form_push s value v).trans (if_neg (Nat.ne_of_lt there))

/-- A value is put in the place of another one of its form. -/
theorem setValue {v : ValueId} {value : Value} (same : value.form = s.form v) :
    KeepsFaith host s (s.setValue v value) := by
  have forms : ∀ w, (s.setValue v value).form w = s.form w := congr_form_setValue id same
  refine of_forms (.of_same (.of_eq rfl) rfl) (fun hosted o w kept => ?_) (fun _ _ => id) fun w _ => .inl (forms w)
  rw [forms]
  simpa [Session.setValue] using hosted o w kept

/-- The value that is made for an object suits it. -/
theorem of_made {object : ObjectId} {value : Value} (suits : s.WellTyped → s.host.Suits object value.form)
    (endures : Endures s t) (hosted : Hosted s → Hosted t) (values : t.values = s.values.push value)
    (objects : t.objectValues = s.objectValues.put object (some s.nextValue)) : KeepsFaith host s t := by
  intro faithful
  refine ⟨faithful.grows.trans endures.host, endures.wellTyped.2 faithful.typed, hosted faithful.hosted, ?_⟩
  intro o v kept
  rw [form, Session.value, values]
  change host.Suits o ((s.withValue value).form v)
  rw [objects, Cache.find?_put_eq] at kept
  rw [Session.withValue, form_push]
  split at kept
  · next own =>
    cases kept
    have last : s.nextValue.index = s.values.size := rfl
    rw [if_pos last, eq_of_beq own]
    exact faithful.grows.suits.1 (suits faithful.typed)
  · rw [if_neg (Nat.ne_of_lt (faithful.hosted o v kept).1)]
    exact faithful.suits o v kept

theorem of_reserves (b : Reserves s t) : KeepsFaith host s t :=
  of_forms b.endures (Remote.of_reserves b).hosted (fun o v => (b.objects o v).1)
    fun v _ => .inl (by rw [form, form, value, value, b.values])

theorem of_change {R : Realm} (c : Change R s t) : KeepsFaith host s t := by
  have hosted := (Remote.of_change c).hosted
  cases c with
  | beside b => exact of_reserves b.toReserves
  | watch | newRecord | setRecord | noteRecord | newScope | setScope => exact of_same (.of_same (.of_eq rfl) rfl) rfl rfl
  | make | makeConstant | makeAggregate | makeBound => exact of_push (.of_same (.of_eq rfl) rfl) hosted rfl rfl
  | setForm v form kind own =>
    -- Only functions, classes and instances of the program get other forms, and they stand for no object.
    refine of_forms (.of_same (.of_eq rfl) rfl) hosted (fun _ _ => id) fun w _ => ?_
    rw [form_setValue]
    split
    · next same =>
      rw [same.1]
      right
      cases old : s.form v <;> rw [old] at kind <;> first | rfl | (cases form <;> cases kind; cases own)
    · exact .inl rfl
  | keep => exact setValue rfl
  | makeInstance cls name description type form of there =>
    let made := s.withValue ⟨name, description, type, form, {}, []⟩
    have remote : Remote s made := .push rfl rfl rfl rfl fun _ _ => .inl
    have first : KeepsFaith host s made := of_push (.of_same (.of_eq rfl) rfl) remote.hosted rfl rfl
    refine first.trans (setValue ?_)
    exact ((form_push s _ cls).trans (if_neg (Nat.ne_of_lt there))).symm
  | makeObject object name description type form of suits => exact of_made suits (.of_same (.of_eq rfl) rfl) hosted rfl rfl

theorem sustains : Sustains (KeepsFaith host) where
  refl := refl
  trans := trans
  change := of_change
  lookup c := c.through refl trans of_change of_reserves
  names _ _ := of_same (.of_same (.of_eq rfl) rfl) rfl rfl
  replace _ _ _ _ := setValue rfl
  wrap _ _ _ _ := setValue rfl
  ref _ _ _ := of_same (.of_same (.of_eq rfl) rfl) rfl rfl
  elsewhere other := of_same (.of_same other.host other.shelf) other.values (congrArg (·.1) other.tables)

theorem of_touches {L : Licence} {R : Realm} (touches : Touches L R s t) : KeepsFaith host s t :=
  of_all (fun _ _ => sustains.touch) touches

theorem withListed (s : Session) (name path : String) : KeepsFaith host s (s.withListed name path) := by
  have objects : (s.withListed name path).objectValues = s.objectValues := by
    unfold Session.withListed
    split <;> rfl
  exact of_push (.withListed s name path) (Remembers.withListed s name path).hosted
    (values_withListed s name path) objects

/-- When the tables are emptied nothing is kept for objects. -/
theorem clearCaches (s : Session) : KeepsFaith host s (after clearCaches s) :=
  of_forms (.of_same (.of_eq rfl) rfl) (fun _ _ _ kept => nomatch kept) (fun _ _ kept => nomatch kept) fun _ _ => .inl rfl

end KeepsFaith

/-- What callers ask of a session: that something is done, or for the value of an object, the class of a type or
the module of a module of the host. -/
inductive Demand where
  | act (o : Operation)
  | value (object : Option ObjectId)
  | class_ (type : ObjectId)
  | module (object : ObjectId)

namespace Demand

def run : Demand → Analysis Unit
  | act o => o.run
  | value object => do let _ ← valueOf object
  | class_ type => do let _ ← classOf type
  | module object => do let _ ← moduleOfObject object

def Typed (host : Host) : Demand → Prop
  | act (.setResourceObjects _ objects) => ∀ name t, (name, some t) ∈ objects.toList → host.IsType t
  | class_ type => host.IsType type
  | module object => host.IsModule object
  | _ => True

end Demand

def afterEach : List Demand → Session → Session
  | [], s => s
  | d :: rest, s => afterEach rest (after d.run s)

namespace KeepsFaith

/-- What callers may do to a resource leaves types declared. -/
theorem of_edit {o : Operation} (typed : (Demand.act o).Typed host) {r : ResourceId} {f : Resource → Resource}
    (edit : o.edit? = some (r, f)) (s : Session) : KeepsFaith host s (after (updateResource r f) s) := by
  have declares : ∀ name t, (name, some t) ∈ (f (s.resource r)).objects.toList →
      host.IsType t ∨ (name, some t) ∈ (s.resource r).objects.toList := by
    cases o with
    | setResourceObjects _ objects =>
      cases edit
      exact fun name t declared => .inl (typed name t declared)
    | removeResource named =>
      cases named with
      | none => cases edit
      | some _ =>
        cases edit
        exact fun _ _ => .inr
    | _ => cases edit
  intro faithful
  refine ⟨faithful.grows, ⟨faithful.typed.host, fun q name t declared => ?_⟩, faithful.hosted, faithful.suits⟩
  rw [resource_updateResource] at declared
  split at declared
  · next same =>
    rw [same.1] at declared
    rcases declares name t declared with type | before
    · exact (faithful.grows.isType t).2 type
    · exact faithful.typed.resources r name t before
  · exact faithful.typed.resources q name t declared

theorem operation {o : Operation} (typed : (Demand.act o).Typed host) (s : Session) :
    KeepsFaith host s (after o.run s) :=
  sustains.operation (fun name path _ => withListed s name path) (fun _ => clearCaches) fun _ _ s edit =>
    of_edit typed edit s

end KeepsFaith

/-- Nothing is being looked up, and what is kept for the objects of the host suits them. -/
structure Steadfast (host : Host) (s : Session) : Prop where
  rest : AtRest s
  faithful : Faithful host s

namespace Steadfast

theorem of_touches {L : Licence} (h : Steadfast host s) (touches : Touches L .all s t) : Steadfast host t where
  rest := h.rest.remembers (.of_all (fun _ _ => .of_touch) touches)
  faithful := KeepsFaith.of_touches touches h.faithful

theorem of_roams {α : Type} {m : Analysis α} {Q : α → Prop} (h : Steadfast host s)
    (roams : Roams noLicence .all m Q) : Steadfast host (after m s) := h.of_touches (roams s (Realm.closed_all s)).1

theorem knowsType (h : Steadfast host s) {o : ObjectId} (is : host.IsType o) : s.KnowsType o :=
  fun _ => (h.faithful.grows.isType o).2 is

private theorem knowsModule (h : Steadfast host s) {o : ObjectId} (is : host.IsModule o) : s.KnowsModule o :=
  fun _ => (h.faithful.grows.isModule o).2 is

private theorem demand {d : Demand} (h : Steadfast host s) (typed : d.Typed host) : Steadfast host (after d.run s) := by
  cases d with
  | act o => exact ⟨h.rest.operation o, KeepsFaith.operation typed s h.faithful⟩
  | value object => exact h.of_roams (.bind (Roams.valueOf object) fun _ _ => .pure (Q := fun _ => True) trivial)
  | class_ type =>
    have found := Roams.of_lookups (L := noLicence) (Recalls.classOf (Realm.closed_all s) (h.knowsType typed))
    rw [Demand.run, after_ignore]
    exact h.of_touches found.1
  | module object =>
    have found := Roams.moduleOfObject (L := noLicence) (Realm.closed_all s) (h.knowsModule typed)
    rw [Demand.run, after_ignore]
    exact h.of_touches found.1

private theorem afterEach {demands : List Demand} (h : Steadfast host s) (typed : ∀ d ∈ demands, d.Typed host) :
    Steadfast host (afterEach demands s) := by
  induction demands generalizing s with
  | nil => exact h
  | cons d rest ih =>
    exact ih (h.demand (typed d List.mem_cons_self)) fun e he => typed e (List.mem_cons_of_mem _ he)

theorem create {options : Options} {hostRequests : List Request}
    (made : create options host hostRequests = .ok s) (typed : host.WellTyped) : Steadfast host s := by
  have empty : Faithful host (blank options host hostRequests) := by
    refine ⟨.of_eq rfl, ⟨typed, fun _ _ _ declared => ?_⟩, fun _ _ kept => ?_, fun _ _ kept => ?_⟩
    · cases declared
    · cases kept
    · cases kept
  refine ⟨.create made, ?_⟩
  rw [created_eq made]
  exact KeepsFaith.sustains.load _ empty

end Steadfast

/-- What is given for a type is the class of the type, and for a module of the host the module. What passes for a
container of members may be given as what merely reflects it. -/
structure GivesKinds (host : Host) (s : Session) : Prop where
  class_ : ∀ t v r, host.IsType t → classOf t s = .ok (some v) r →
    r.form v = .builtinClass t ∨ host.classify t = .memberContainer ∧ r.form v = .reflected t
  module : ∀ m v r, host.IsModule m → moduleOfObject m s = .ok (some v) r →
    r.form v = .builtinModule m ∨ host.classify m = .memberContainer ∧ r.form v = .reflected m

namespace Faithful

/-- What a lookup yields for an object suits it, for it is kept. -/
theorem suits_of_run {object : ObjectId} {make : Analysis ValueId} {v : ValueId} {r : Session}
    (faithful : Faithful host s)
    (proceeds : Proceeds (Touch noLicence .all) (objectValue object make) Realm.all.found s)
    (run : objectValue object make s = .ok (some v) r) : host.Suits object (r.form v) := by
  have kept : r.objectValues.find? object = some (some v) :=
    CacheField.find?_of_recall (fun _ _ => rfl) (by simp) run
  have stays : Faithful host r := by
    rw [← after_of_ok run]
    exact KeepsFaith.of_touches proceeds.1 faithful
  exact stays.suits object v kept

private theorem givesKinds (faithful : Faithful host s) : s.GivesKinds host where
  class_ t _ _ is run :=
    have known : s.KnowsType t := fun _ => (faithful.grows.isType t).2 is
    (faithful.suits_of_run (Roams.of_lookups (Recalls.classOf (Realm.closed_all s) known)) run).type is
  module m _ _ is run :=
    have known : s.KnowsModule m := fun _ => (faithful.grows.isModule m).2 is
    (faithful.suits_of_run (Roams.moduleOfObject (Realm.closed_all s) known) run).module is

end Faithful

/-- Types of the host are given as classes and its modules as modules, whatever callers have asked for before,
wherever an evaluation has got to, and also while a value is being looked up. Only an object that passes for a
container of members may be given as what merely reflects it. -/
theorem objects_keep_their_kinds {options : Options} {hostRequests : List Request} {first : Session}
    (made : create options host hostRequests = .ok first) (typed : host.WellTyped) (demands : List Demand)
    (passed : ∀ d ∈ demands, d.Typed host) {L : Licence} {s : Session}
    (reached : Touches L .all (afterEach demands first) s) :
    (∀ t, host.IsType t → ∃ v r, classOf t s = .ok (some v) r) ∧
      (∀ m, host.IsModule m → ∃ v r, moduleOfObject m s = .ok (some v) r) ∧
      ∀ q, Relation.ReflTransGen (Growth .all) s q → q.GivesKinds host := by
  have steadfast : Steadfast host s := ((Steadfast.create made typed).afterEach passed).of_touches reached
  refine ⟨fun t is => ?_, fun m is => ?_, fun q growth => ?_⟩
  · obtain ⟨v, run, -⟩ := classOf_known steadfast.rest (steadfast.knowsType is)
    exact ⟨v, _, run⟩
  · obtain ⟨found, r, run, kept, -⟩ := Roams.moduleOfObject_run m s
    have proceeds := Roams.moduleOfObject (L := noLicence) (Realm.closed_all s) (steadfast.knowsModule is)
    have rest := (steadfast.of_touches proceeds.1).rest
    rw [after_of_ok run] at rest
    cases found with
    | none => exact absurd kept (rest.objects m)
    | some v => exact ⟨v, r, run⟩
  · -- While a value is looked up its place is empty, and nothing is kept yet that would have to suit.
    have keeps : KeepsFaith host s q := .of_all (fun _ _ step => by
      cases step with
      | change c => exact .of_change c
      | place p => exact .of_reserves p) growth
    exact (keeps steadfast.faithful).givesKinds

/-- A host with a type and a module that say what they are, a type that says to be a container of members, and an
object of each of the types. -/
def claimingHost : Host where
  objects := #[⟨.type "Plain" "" .unknown {}, .type⟩, ⟨.constant (some ⟨0⟩), .constant⟩,
    ⟨.type "Shy" "" .unknown {}, .memberContainer⟩, ⟨.constant (some ⟨2⟩), .constant⟩, ⟨.module "m" {}, .module⟩]

private theorem wellTyped_claimingHost : claimingHost.WellTyped where
  types _ _ given := nomatch given
  declared _ _ given := nomatch given
  typeOf := by
    rintro ⟨_ | _ | _ | _ | _ | i⟩ t given <;> cases given <;> rfl
  returns := by
    rintro ⟨_ | _ | _ | _ | _ | i⟩ t given <;> cases given
  applied _ _ given := nomatch given
  imported _ _ given := nomatch given

def claiming : Session := after load (blank {} claimingHost [])

/-- The objects are looked up before the plain type and the module are. -/
theorem plain_type_is_class :
    let s := afterEach [.value (some ⟨1⟩), .value (some ⟨0⟩), .value (some ⟨4⟩), .value (some ⟨3⟩)] claiming
    (∃ v r, classOf ⟨0⟩ s = .ok (some v) r ∧ r.form v = .builtinClass ⟨0⟩) ∧
      ∃ v r, moduleOfObject ⟨4⟩ s = .ok (some v) r ∧ r.form v = .builtinModule ⟨4⟩ := by
  intro s
  have made : create {} claimingHost [] = .ok claiming := create_unasked _ _
  have passed : ∀ d ∈ [Demand.value (some ⟨1⟩), .value (some ⟨0⟩), .value (some ⟨4⟩), .value (some ⟨3⟩)],
      d.Typed claimingHost := by
    intro d mem
    simp only [List.mem_cons, List.not_mem_nil, or_false] at mem
    rcases mem with rfl | rfl | rfl | rfl <;> trivial
  obtain ⟨classes, modules, kinds⟩ :=
    objects_keep_their_kinds (L := noLicence) made wellTyped_claimingHost _ passed .refl
  obtain ⟨v, r, class_⟩ := classes ⟨0⟩ rfl
  obtain ⟨w, q, module⟩ := modules ⟨4⟩ rfl
  have plain : claimingHost.classify ⟨0⟩ ≠ .memberContainer ∧ claimingHost.classify ⟨4⟩ ≠ .memberContainer := by
    decide
  exact ⟨⟨v, r, class_, ((kinds s .refl).class_ ⟨0⟩ v r rfl class_).resolve_right fun h => plain.1 h.1⟩,
    w, q, module, ((kinds s .refl).module ⟨4⟩ w q rfl module).resolve_right fun h => plain.2 h.1⟩

/-- Once the value of the type that says to be a container has been asked for, what is given for the type is not a
class. -/
theorem container_type_is_no_class :
    ¬ ∀ (host : Host) (s : Session) (demands : List Demand) (t : ObjectId) (v : ValueId) (r : Session),
      create {} host [] = .ok s → host.WellTyped → (∀ d ∈ demands, d.Typed host) → host.IsType t →
      classOf t (afterEach demands s) = .ok (some v) r → r.form v = .builtinClass t := by
  intro always
  have made : create {} claimingHost [] = .ok claiming := create_unasked _ _
  let s := afterEach [.value (some ⟨2⟩)] claiming
  have yields : yield? (classOf ⟨2⟩) s = some (some ⟨0⟩) ∧
      ((after (classOf ⟨2⟩) s).form ⟨0⟩).kind = .reflected := by
    decide +kernel
  have passed : ∀ d ∈ [Demand.value (some ⟨2⟩)], d.Typed claimingHost := by
    intro d mem
    cases List.mem_singleton.1 mem
    trivial
  have class_ := always _ _ _ ⟨2⟩ _ _ made wellTyped_claimingHost passed rfl (ok_of_yield? yields.1)
  have kind := yields.2
  rw [class_] at kind
  cases kind

end Session

end Typeflow
