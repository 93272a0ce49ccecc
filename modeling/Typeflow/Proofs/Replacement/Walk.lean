import Typeflow.Proofs.Replacement.Standing
import Typeflow.Proofs.Settled.Walk

/-! What a body that is run to its end leaves of the functions whose calls its module replaces: each keeps its wrapper,
and its name is bound to the wrapper. -/
namespace Typeflow.Session

variable {s t q r : Session} {L : Licence} {u : UnitId} {e : EntryId} {name : String} {body : Body} {v w : ValueId}

theorem Touches.of_keeping {R : Realm} (touches : Touches L.keeping R s t) : Touches L R s t := by
  refine Relation.ReflTransGen.mono (fun s t touch => ?_) _ _ touches
  cases touch with
  | steps steps fine => exact .steps steps.of_keeping fine
  | lookup h => exact .lookup ⟨h.steps.of_keeping, h.growth, h.places⟩
  | wrap u body v w licensed => exact False.elim licensed
  | renew e => exact .renew e
  | settle r idle => exact .settle r idle
  | load r name object m cell idle made => exact .load r name object m cell idle made

/-- No function gets a wrapper. -/
def WrapsNone (s t : Session) : Prop :=
  ∀ v w, (t.value v).kept? .wrapper = some w → (s.value v).kept? .wrapper = some w

namespace WrapsNone

theorem refl (s : Session) : WrapsNone s s := fun _ _ => id

theorem trans (h : WrapsNone s t) (g : WrapsNone t q) : WrapsNone s q := fun v w => h v w ∘ g v w

theorem of_values (values : t.values = s.values) : WrapsNone s t := fun v w kept => by
  rwa [value, values] at kept

theorem of_push {value : Value} (values : t.values = s.values.push value) (bare : value.kept = []) : WrapsNone s t := by
  intro v w kept
  rw [show t.value v = _ from (congrArg (·.getD v.index default) values).trans (value_push s value v)] at kept
  split at kept
  · rw [Value.kept?, bare] at kept
    cases kept
  · exact kept

theorem setValue {value : Value}
    (wrapper : ∀ w, value.kept? .wrapper = some w → (s.value v).kept? .wrapper = some w) :
    WrapsNone s (s.setValue v value) := by
  intro o w kept
  rw [value_setValue] at kept
  split at kept
  · next own => exact own.1 ▸ wrapper w kept
  · exact kept

theorem keep {slot : Slot} (other : slot ≠ .wrapper) : WrapsNone s (s.setValue v ((s.value v).keep slot w)) :=
  setValue fun _ => kept?_keep_ne other.symm

theorem of_change {R : Realm} (c : Change R s t) : WrapsNone s t := by
  cases c with
  | beside b => exact of_values b.values
  | watch | newRecord | setRecord | noteRecord | newScope | setScope => exact of_values rfl
  | make | makeObject | makeConstant | makeAggregate | makeBound => exact of_push rfl rfl
  | setForm => exact setValue fun _ => id
  | keep v slot other own unwrapped => exact keep unwrapped
  | makeInstance cls name description type form of there =>
    have made : WrapsNone s (s.withValue ⟨name, description, type, form, {}, []⟩) := of_push rfl rfl
    have same : (s.withValue ⟨name, description, type, form, {}, []⟩).value cls = s.value cls :=
      (value_push s _ cls).trans (if_neg (Nat.ne_of_lt there))
    rw [← same]
    exact made.trans (keep nofun)

theorem spans : SpansBare WrapsNone where
  refl := refl
  trans := trans
  change := of_change
  lookup c := c.through refl trans of_change fun b => of_values b.values
  names _ _ := of_values rfl
  replace _ _ _ _ := setValue fun _ => id
  ref _ _ _ := of_values rfl

theorem of_changes {R : Realm} (changes : Changes R s t) : WrapsNone s t := spans.all (fun _ _ => of_change) changes

/-- Evaluations wrap no function. -/
theorem of_touches {R : Realm} (touches : Touches L.keeping R s t) : WrapsNone s t :=
  spans.all (fun _ _ touch => spans.touch_or touch fun _ _ _ _ licensed _ => False.elim licensed) touches

end WrapsNone

/-- The name is bound to the value in the scope of the unit, or the unit waits. -/
def Prepared (s : Session) (u : UnitId) (name : String) (w : ValueId) : Prop :=
  s.queue.holds (s.job u) = true ∨
    (ValueSet.single (some w)).members ≤ s.held (.name (s.unit u).scope name)

theorem Prepared.serves (h : s.Prepared u name w) (grows : Grows s t) (serves : Serves u s t) :
    t.Prepared u name w := by
  rcases h with waits | bound
  · exact .inl (serves.waits waits)
  by_cases waits : t.queue.holds (t.job u) = true
  · exact .inl waits
  · have kept : ∀ x, s.recordAt? (.name (s.unit u).scope name) = some x →
        t.recordAt? (.name (s.unit u).scope name) = some x :=
      fun x stored => (serves.names name x stored).resolve_left waits
    right
    rw [serves.scope]
    exact le_trans bound (held_le_of_kept grows kept)

/-- The module replaces the calls of the function of the name that the unit defines. -/
def Replaces (s : Session) (u : UnitId) (e : EntryId) (name : String) : Prop :=
  s.specialization? (s.entry e).module (s.qualifiedName u name) ≠ none

/-- The wrapper for the function of the name that the unit defines. -/
def wrapperOf (s : Session) (u : UnitId) (e : EntryId) (v : ValueId) (name : String) : Wrapper :=
  ⟨some v, s.qualifiedName u name, .table (s.entry e).module⟩

/-- The node of the body has its function, the function its wrapper, and the name is bound to the wrapper. -/
structure Dressed (s : Session) (u : UnitId) (name : String) (body : Body) (v w : ValueId) : Prop where
  slot : s.slot (s.unit u).scope body.node.id = some (.single (some v))
  kept : (s.value v).kept? .wrapper = some w
  prepared : s.Prepared u name w

/-- A unit of a module is being run. -/
structure Underway (L : Licence) (u : UnitId) (e : EntryId) (s : Session) : Prop where
  ready : Ready L s
  supplied : Supplied s
  alive : s.isAlive u = true
  entry : (s.unit u).entry = some e

/-- What an evaluation leaves as it finds it. -/
structure Advances (u : UnitId) (e : EntryId) (s t : Session) : Prop where
  upholds : Upholds s t
  grows : Grows s t
  serves : Serves u s t
  carries : Carries s t
  unit : t.unit u = s.unit u
  qualified : ∀ name, t.qualifiedName u name = s.qualifiedName u name
  slot : ∀ c body values, s.hasBody e body → s.slot c body.node.id = some values →
    t.slot c body.node.id = some values

namespace Advances

theorem wrapperOf (h : Advances u e s t) (v : ValueId) (name : String) : t.wrapperOf u e v name = s.wrapperOf u e v name := by
  rw [Session.wrapperOf, h.qualified, h.carries.module, Session.wrapperOf]

theorem replaces (h : Advances u e s t) (replaced : s.Replaces u e name) : t.Replaces u e name := by
  rw [Replaces, h.qualified, h.carries.module]
  exact h.upholds.replaced _ _ replaced

theorem dressed (h : Advances u e s t) (has : s.hasBody e body) (dressed : s.Dressed u name body v w) :
    t.Dressed u name body v w where
  slot := by
    rw [h.unit]
    exact h.slot _ body _ has dressed.slot
  kept := h.upholds.wrapper v w dressed.kept
  prepared := dressed.prepared.serves h.grows h.serves

end Advances

namespace Underway

theorem hasBody (h : Underway L u e s) (licensed : L.define u body) : s.hasBody e body := by
  obtain ⟨-, f, entry, -, has⟩ := h.ready.sound u body licensed
  rwa [Option.some.inj (h.entry.symm.trans entry)]

private theorem scope_inRange (h : Underway L u e s) : (s.unit u).scope.index < s.scopes.size :=
  h.ready.sane.coherent.unitScope u (index_lt_of_isAlive h.alive)

/-- The scope of a unit that is run belongs to its module or to what it defines. -/
theorem owner_inRange (h : Underway L u e s) (owner : ValueId) (owned : (s.scope (s.unit u).scope).owner = some owner) :
    owner.index < s.values.size := by
  have there : ∀ x, (s.form x).scope? = some (s.unit u).scope → owner.index < s.values.size := by
    intro x hx
    have own := (h.ready.sane.coherent.owned x _ hx).2
    rw [owned] at own
    rw [Option.some.inj own]
    refine index_lt_of_form ?_
    rintro none
    rw [none] at hx
    cases hx
  rcases (h.ready.sane.coherent.placed u e h.alive h.entry).role with ⟨-, module⟩ | ⟨x, code⟩
  · exact there _ (Form.scope?_of_module? module)
  · exact there x (Form.scope?_of_code? code)

theorem touches (h : Underway L u e s) (touches : Touches L .all s t) : Underway L u e t ∧ Advances u e s t := by
  have steps := steps_of_touches touches
  have upholds : Upholds s t := .of_touches touches
  have same := Ages.unit_of_steps h.ready.sane h.ready.sound steps (index_lt_of_isAlive h.alive)
  obtain ⟨-, -, alive, serves⟩ := Serves.of_touches h.ready.sane h.ready.sound h.alive touches
  have supplied := (Supplies.of_steps h.ready.sane h.ready.sound steps).supplied h.supplied
  exact ⟨⟨h.ready.steps steps, supplied, alive, by rw [same, h.entry]⟩,
    { upholds, serves, unit := same,
      grows := .of_steps steps,
      carries := h.ready.carries steps,
      qualified := upholds.qualifiedName (by rw [same]) h.scope_inRange h.owner_inRange,
      slot := fun c body values has kept =>
        h.ready.slot_same steps (fun keeps => h.ready.apart.keep _ keeps ⟨e, body, has, rfl⟩) kept }⟩

/-- What is bound to a name is among its types. -/
theorem held_bindName (h : Underway L u e s) (node : Node) (name : String) (values : ValueSet) :
    values.members ≤ (after (bindName u node name values) s).held (.name (s.unit u).scope name) := by
  obtain ⟨x, run, stored, there⟩ := nameIn_receptive h.scope_inRange h.supplied.recorded name
  let named := after (nameIn (s.unit u).scope name) s
  have ends : after (bindName u node name values) s = after (bindAt x (named.placeOf u node) values) named := by
    rw [bindName, after_read, after_bind_of_ok run]
    rfl
  rw [ends]
  exact held_bindAt stored there _ values

end Underway

/-- The wrapper of a function is the one that it keeps. Only then is it new, when the function had none. -/
theorem functionWrapper_keeps (there : v.index < s.values.size) (module : ValueId) (qualified : String) :
    ∃ w t, functionWrapper v module qualified s = .ok (.single (some w)) t ∧ (t.value v).kept? .wrapper = some w ∧
      ∀ x y, (t.value x).kept? .wrapper = some y →
        (s.value x).kept? .wrapper = some y ∨ x = v ∧ t.form y = .wrapper ⟨some v, qualified, .table module⟩ := by
  cases kept : (s.value v).kept? .wrapper with
  | some w => exact ⟨w, s, functionWrapper_of_some kept module qualified, kept, fun _ _ => .inl⟩
  | none =>
    obtain ⟨value, is, -, run⟩ := functionWrapper_of_none kept module qualified
    have look : ∀ x, x.index ≠ s.values.size → (s.withValue value).value x = s.value x := fun x hx =>
      (value_push s value x).trans (if_neg hx)
    have size : (s.withValue value).values.size = s.values.size + 1 := Array.size_push _
    have own : ((s.withWrapper v value).value v).kept? .wrapper = some s.nextValue := by
      rw [withWrapper, value_setValue, if_pos ⟨rfl, by rw [size]; exact Nat.lt_succ_of_lt there⟩, Value.kept?_keep,
        if_pos rfl]
    have form : (s.withWrapper v value).form s.nextValue = value.form := by
      rw [withWrapper, form_setValue, if_neg]
      · exact (form_push s value s.nextValue).trans (if_pos rfl)
      · rintro ⟨new, -⟩
        rw [← new] at there
        exact Nat.lt_irrefl _ there
    refine ⟨s.nextValue, _, run, own, fun x y has => ?_⟩
    by_cases same : x = v
    · rw [same, own] at has
      cases has
      exact .inr ⟨same, form.trans is.form⟩
    · rw [withWrapper, value_setValue, if_neg fun h => same h.1] at has
      by_cases new : x.index = s.values.size
      · rw [show (s.withValue value).value x = value from (value_push s value x).trans (if_pos new), Value.kept?,
          is.kept] at has
        cases has
      · rw [look x new] at has
        exact .inl has

/-- What is done for the functions of a body: those that are replaced are dressed, and no other gets a wrapper. -/
structure Dresses (L : Licence) (u : UnitId) (e : EntryId) (functions : List (String × Body)) (s t : Session) :
    Prop where
  touches : Touches L .all s t
  wraps : ∀ v w, (s.value v).kept? .wrapper = none → (t.value v).kept? .wrapper = some w →
    ∃ f ∈ functions, t.slot (t.unit u).scope f.2.node.id = some (.single (some v)) ∧
      t.form w = .wrapper (t.wrapperOf u e v f.1)
  bound : ∀ f ∈ functions, s.Replaces u e f.1 → ∃ v w, t.Dressed u f.1 f.2 v w

namespace Dresses

variable {F G : List (String × Body)}

theorem of_none (touches : Touches L .all s t) (none : WrapsNone s t) : Dresses L u e [] s t where
  touches := touches
  wraps v w free kept := by
    rw [none v w kept] at free
    cases free
  bound _ hf := nomatch hf

theorem trans (start : Underway L u e s) (licensed : ∀ f ∈ F, L.define u f.2) (h : Dresses L u e F s r)
    (g : Dresses L u e G r t) : Dresses L u e (F ++ G) s t := by
  obtain ⟨middle, first⟩ := start.touches h.touches
  obtain ⟨-, second⟩ := middle.touches g.touches
  have has : ∀ f ∈ F, r.hasBody e f.2 := fun f hf => middle.hasBody (licensed f hf)
  refine ⟨h.touches.trans g.touches, fun v w free kept => ?_, fun f hf replaced => ?_⟩
  · cases between : (r.value v).kept? .wrapper with
    | none =>
      obtain ⟨f, hf, slot, form⟩ := g.wraps v w between kept
      exact ⟨f, List.mem_append_right _ hf, slot, form⟩
    | some x =>
      obtain ⟨f, hf, slot, form⟩ := h.wraps v x free between
      obtain rfl : x = w := Option.some.inj ((second.upholds.wrapper v x between).symm.trans kept)
      refine ⟨f, List.mem_append_left _ hf, ?_, ?_⟩
      · rw [second.unit]
        exact second.slot _ f.2 _ (has f hf) slot
      · rw [second.wrapperOf]
        exact second.upholds.form x _ form
  · rcases List.mem_append.1 hf with hf | hf
    · obtain ⟨v, w, dressed⟩ := h.bound f hf replaced
      exact ⟨v, w, second.dressed (has f hf) dressed⟩
    · exact g.bound f hf (first.replaces replaced)

end Dresses

def Dressing (L : Licence) (u : UnitId) (e : EntryId) (functions : List (String × Body)) {α : Type} (m : Analysis α) :
    Prop :=
  ∀ s a t, Underway L u e s → m s = .ok a t → Dresses L u e functions s t

namespace Dressing

variable {F G : List (String × Body)} {α β : Type}

theorem of_roams {m : Analysis α} {Q : α → Prop} (h : Roams L.keeping .all m Q) : Dressing L u e [] m := by
  intro s a t _ ends
  have touches : Touches L.keeping .all s (after m s) := (h s (Realm.closed_all s)).1
  rw [after_of_ok ends] at touches
  exact .of_none touches.of_keeping (.of_touches touches)

theorem bind {m : Analysis α} {f : α → Analysis β} (licensed : ∀ f ∈ F, L.define u f.2) (hm : Dressing L u e F m)
    (hf : ∀ a, Dressing L u e G (f a)) : Dressing L u e (F ++ G) (m >>= f) := by
  intro s b t start ends
  obtain ⟨a, r, first, second⟩ := bind_eq_ok ends
  have dressed := hm s a r start first
  exact dressed.trans start licensed (hf a r b t (start.touches dressed.touches).1 second)

/-- What is evaluated before dresses nothing. -/
theorem afterwards {m : Analysis α} {f : α → Analysis β} (hm : Dressing L u e [] m)
    (hf : ∀ a, Dressing L u e F (f a)) : Dressing L u e F (m >>= f) :=
  bind (F := []) (fun _ hb => nomatch hb) hm hf

/-- A definition is found or made, in the place where it stands. -/
theorem definition {kind : ValueKind} {make : Analysis ValueId} (start : Underway L u e s) (licensed : L.define u body)
    (hkind : body.kind = kind) (makes : Makes kind u body make) (fine : Fine .all make Realm.all.value)
    {found : Option Definition} (run : definitionAt u body.node kind make s = .ok found t) :
    WrapsNone s t ∧ ∃ made, found = some made ∧
      t.slot (t.unit u).scope body.node.id = some (.single (some made.value)) := by
  have none : WrapsNone s t := by
    have changes := (Fine.definitionAt u body.node kind fine s (Realm.closed_all s)).1
    rw [after_of_ok run] at changes
    exact .of_changes changes
  refine ⟨none, ?_⟩
  rcases definitionAt_run makes s with ⟨values, kept, ends⟩ | ⟨-, q, ends, defines⟩
  · obtain ⟨v, rfl, stands⟩ := start.ready.slots.made _ e body values (start.hasBody licensed) kept
    rw [ends] at run
    cases run
    refine ⟨⟨v, false⟩, ?_, kept⟩
    have same : (s.value v).kind = kind := stands.2.trans hkind
    change ([v].find? fun v => decide ((s.value v).kind = kind)).map (⟨·, false⟩) = some (⟨v, false⟩ : Definition)
    rw [List.find?_cons_of_pos (by simpa using same)]
    rfl
  · rw [ends] at run
    cases run
    refine ⟨_, rfl, ?_⟩
    rw [slot, defines.nodes start.scope_inRange, if_pos]
    rw [Session.unit, defines.units]
    exact ⟨rfl, rfl⟩

/-- A function is bound to its name itself, or its wrapper is if the module replaces its calls. -/
theorem functionBinding_ends (start : Underway L u e s) (there : v.index < s.values.size) {bound : ValueSet × Bool}
    (run : functionBinding u v name s = .ok bound t) :
    t = s ∧ ¬ s.Replaces u e name ∨
      ∃ w, bound.1 = .single (some w) ∧ (t.value v).kept? .wrapper = some w ∧
        ∀ x y, (t.value x).kept? .wrapper = some y →
          (s.value x).kept? .wrapper = some y ∨ x = v ∧ t.form y = .wrapper (s.wrapperOf u e v name) := by
  simp only [functionBinding, read_run, start.entry] at run
  cases replaced : s.specialization? (s.entry e).module (s.qualifiedName u name) with
  | none =>
    rw [replaced] at run
    cases run
    exact .inl ⟨rfl, fun h => h replaced⟩
  | some spec =>
    rw [replaced] at run
    obtain ⟨w, q, wraps, own, only⟩ := functionWrapper_keeps there (s.entry e).module (s.qualifiedName u name)
    obtain ⟨set, _, made, yields⟩ := bind_eq_ok run
    cases wraps.symm.trans made
    cases yields
    exact .inr ⟨w, rfl, own, only⟩

/-- A function is dressed once its name is bound to its wrapper. -/
theorem bindName_dresses (start : Underway L u e s) (licensed : L.define u body) (node : Node)
    (slot : s.slot (s.unit u).scope body.node.id = some (.single (some v)))
    (kept : (s.value v).kept? .wrapper = some w) {rest : Analysis Unit} (roams : Roams L .all rest fun _ => True)
    (run : (bindName u node name (.single (some w)) >>= fun _ => rest) s = .ok () t) : t.Dressed u name body v w := by
  obtain ⟨_, q, binds, ends⟩ := bind_eq_ok run
  have names : Roams L .all (bindName u node name (.single (some w))) fun _ => True :=
    .bindName node name (Realm.set_all _)
  have first := (names s (Realm.closed_all s)).1
  have held := start.held_bindName node name (.single (some w))
  rw [after_of_ok binds] at first held
  obtain ⟨next, named⟩ := start.touches first
  have dressed : q.Dressed u name body v w := by
    refine ⟨?_, named.upholds.wrapper v w kept, .inr ?_⟩ <;> rw [named.unit]
    · exact named.slot _ body _ (start.hasBody licensed) slot
    · exact held
  have second := (roams q (Realm.closed_all q)).1
  rw [after_of_ok ends] at second
  exact (next.touches second).2.dressed (next.hasBody licensed) dressed

/-- Once a function is made it is bound to its name, dressed if the module replaces its calls. -/
private theorem binding_dresses (start : Underway L u e s) (licensed : L.define u body)
    (slot : s.slot (s.unit u).scope body.node.id = some (.single (some v))) {bound : ValueSet × Bool}
    (binds : functionBinding u v name s = .ok bound r) {rest : Analysis Unit}
    (roams : ∀ K : Licence, Roams K .all rest fun _ => True)
    (ends : (bindName u body.node name bound.1 >>= fun _ => rest) r = .ok () t) :
    WrapsNone s t ∧ ¬ s.Replaces u e name ∨
      ∃ w, t.Dressed u name body v w ∧ ∀ x y, (t.value x).kept? .wrapper = some y →
        (s.value x).kept? .wrapper = some y ∨ x = v ∧ t.form y = .wrapper (s.wrapperOf u e v name) := by
  obtain ⟨x, same, stands⟩ := start.ready.slots.made _ e body _ (start.hasBody licensed) slot
  cases same
  have last : Touches L.keeping .all r t := by
    have names : Roams L.keeping .all _ _ :=
      .bind (Roams.bindName (u := u) body.node name (Realm.set_all bound.1)) fun _ _ => roams L.keeping
    have touches := (names r (Realm.closed_all r)).1
    rwa [after_of_ok ends] at touches
  have settled : WrapsNone r t := .of_touches last
  rcases functionBinding_ends start stands.inRange binds with ⟨rfl, kept⟩ | ⟨w, single, own, only⟩
  · exact .inl ⟨settled, kept⟩
  · have binding : Touches L .all s r := by
      have touches := (Roams.functionBinding (R := .all) licensed (v := v) trivial name s (Realm.closed_all s)).1
      rwa [after_of_ok binds] at touches
    obtain ⟨next, first⟩ := start.touches binding
    obtain ⟨-, second⟩ := next.touches last.of_keeping
    have there : r.slot (r.unit u).scope body.node.id = some (.single (some v)) := by
      rw [first.unit]
      exact first.slot _ body _ (start.hasBody licensed) slot
    rw [single] at ends
    refine .inr ⟨w, bindName_dresses next licensed body.node there own (roams L) ends, fun x y has => ?_⟩
    rcases only x y (settled x y has) with old | ⟨rfl, form⟩
    · exact .inl old
    · exact .inr ⟨rfl, second.upholds.form y _ form⟩

theorem walkFunction {params : List Param} {decorators : List Expr}
    (h : ∀ n ∈ Param.placesAll params ++ Expr.placesAll decorators, L.keep n) (hd : L.define u body)
    (kind : body.kind = .function) :
    Dressing L u e [(name, body)] (Session.walkFunction u body name params decorators) := by
  intro s a t start ends
  have whole := (Roams.walkFunction (R := .all) body name params decorators h hd kind s (Realm.closed_all s)).1
  rw [after_of_ok ends] at whole
  rw [List.forall_mem_append] at h
  obtain ⟨-, advances⟩ := start.touches whole
  obtain ⟨found, r, defined, ends⟩ := bind_eq_ok ends
  obtain ⟨none, ⟨v, created⟩, rfl, slot⟩ :=
    definition start hd kind (makes_newFunction u body name _) (.newFunction _ _ _ _) defined
  have defines : Touches L .all s r := by
    have roams : Roams L .all _ _ := .of_step (fun _ => .defineFunction _ _ _ _ hd kind)
      (.definitionAt u body.node .function (.newFunction u body name (params.map fun p => (p.name, p.kind))))
    have touches := (roams s (Realm.closed_all s)).1
    rwa [after_of_ok defined] at touches
  obtain ⟨_, p, defaulted, ends⟩ := bind_eq_ok ends
  obtain ⟨_, q, decorated, ends⟩ := bind_eq_ok ends
  obtain ⟨⟨bound, runBody⟩, o, binds, ends⟩ := bind_eq_ok ends
  have evaluates : Touches L.keeping .all r q := by
    have defaults : Roams L.keeping .all _ _ := .defaults (u := u) v params h.1
    have decorates : Roams L.keeping .all _ _ := .evaluateAll (u := u) decorators h.2
    have first := (defaults r (Realm.closed_all r)).1
    have second := (decorates p (Realm.closed_all p)).1
    rw [after_of_ok defaulted] at first
    rw [after_of_ok decorated] at second
    exact first.trans second
  have still : WrapsNone s q := none.trans (.of_touches evaluates)
  obtain ⟨middle, before⟩ := start.touches (defines.trans evaluates.of_keeping)
  obtain ⟨made, -⟩ := start.touches defines
  obtain ⟨-, second⟩ := made.touches evaluates.of_keeping
  have slotNow : q.slot (q.unit u).scope body.node.id = some (.single (some v)) := by
    rw [second.unit]
    exact second.slot _ body _ (made.hasBody hd) slot
  have queues : ∀ K : Licence, Roams K .all (if created && runBody then enqueueBody v .front else pure ()) fun _ => True :=
    fun K => .ite (Roams.enqueueBody _ _) (.pure trivial)
  rcases binding_dresses middle hd slotNow binds queues ends with ⟨settled, kept⟩ | ⟨w, dressed, only⟩
  · have unwrapped := still.trans settled
    refine ⟨whole, fun x y free has => ?_, fun f hf replaced => ?_⟩
    · rw [unwrapped x y has] at free
      cases free
    · rw [List.mem_singleton.1 hf] at replaced
      exact absurd (before.replaces replaced) kept
  · refine ⟨whole, fun x y free has => ?_, fun f hf _ => ?_⟩
    · rcases only x y has with old | ⟨rfl, form⟩
      · rw [still x y old] at free
        cases free
      · refine ⟨_, List.mem_singleton_self _, dressed.slot, ?_⟩
        rw [advances.wrapperOf, ← before.wrapperOf]
        exact form
    · rw [List.mem_singleton.1 hf]
      exact ⟨v, w, dressed⟩

theorem walkClass {es : List Expr} (h : ∀ n ∈ Expr.placesAll es, L.keep n) (hd : L.define u body)
    (kind : body.kind = .userClass) : Dressing L u e [] (Session.walkClass u body name es) := by
  intro s a t start ends
  have whole := (Roams.walkClass (R := .all) body name es h hd kind s (Realm.closed_all s)).1
  rw [after_of_ok ends] at whole
  obtain ⟨found, r, defined, ends⟩ := bind_eq_ok ends
  obtain ⟨none, ⟨v, created⟩, rfl, -⟩ :=
    definition start hd kind (makes_newClass u body name) (.newClass _ _ _) defined
  have rest : Roams L.keeping .all (do
      es.forM (addBase u v)
      bindName u body.node name (.single v)
      if created then enqueueBody v .front) fun _ => True :=
    .bind (Roams.bases v es h) fun _ _ => .bind (Roams.bindName _ _ (Realm.set_all _)) fun _ _ =>
      .ite (Roams.enqueueBody _ _) (.pure trivial)
  have last := (rest r (Realm.closed_all r)).1
  rw [after_of_ok ends] at last
  exact .of_none whole (none.trans (.of_touches last))

/-- A statement without definitions dresses nothing. -/
theorem walk_undefining (s : Stmt) (hp : ∀ n ∈ s.places, L.keep n) (none : s.definitions = []) :
    Dressing L u e [] (Session.walk u s) :=
  of_roams (Roams.walk s hp fun b hb => by rw [none] at hb; cases hb)

theorem both {thenBody elseBody : List Stmt} (hd : ∀ b ∈ Stmt.definitionsAll thenBody, L.define u b)
    (h : Dressing L u e (Stmt.functionsAll thenBody) (Session.walkAll u thenBody))
    (g : Dressing L u e (Stmt.functionsAll elseBody) (Session.walkAll u elseBody)) :
    Dressing L u e (Stmt.functionsAll thenBody ++ Stmt.functionsAll elseBody) (do
      Session.walkAll u thenBody
      Session.walkAll u elseBody) :=
  bind (fun _ hf => hd _ (Stmt.definitionsAll_of_functionsAll thenBody hf)) h fun _ => g

mutual

theorem walk (s : Stmt) (hp : ∀ n ∈ s.places, L.keep n) (hd : ∀ b ∈ s.definitions, L.define u b) :
    Dressing L u e s.functions (Session.walk u s) := by
  cases s with
  | functionDef mark name params body decorators => exact walkFunction hp (List.forall_mem_singleton.1 hd) rfl
  | classDef mark name es body => exact walkClass hp (List.forall_mem_singleton.1 hd) rfl
  | branch mark cond thenBody elseBody =>
    rw [Stmt.places, List.forall_mem_append, List.forall_mem_append] at hp
    rw [Stmt.definitions, List.forall_mem_append] at hd
    exact afterwards (of_roams (Roams.evaluate cond hp.1)) fun _ =>
      both hd.1 (walkAll thenBody hp.2.1 hd.1) (walkAll elseBody hp.2.2 hd.2)
  | loop mark cond thenBody elseBody =>
    rw [Stmt.places, List.forall_mem_append, List.forall_mem_append] at hp
    rw [Stmt.definitions, List.forall_mem_append] at hd
    exact afterwards (of_roams (Roams.evaluate cond hp.1)) fun _ =>
      both hd.1 (walkAll thenBody hp.2.1 hd.1) (walkAll elseBody hp.2.2 hd.2)
  | each mark target iterable thenBody elseBody =>
    simp only [Stmt.places, List.forall_mem_cons, List.forall_mem_append] at hp
    rw [Stmt.definitions, List.forall_mem_append] at hd
    have asks : Roams.Answers L.keeping .all Session.answer ⟨mark.node .forStmt, u⟩ := .answer hp.1
    exact afterwards (of_roams (Roams.evaluate iterable hp.2.2.1)) fun values =>
      afterwards (of_roams (Roams.askAll asks (Realm.set_all values) trivial)) fun elements =>
        afterwards (of_roams (Roams.assignTo _ (Realm.set_all elements) target hp.2.1)) fun _ =>
          both hd.1 (walkAll thenBody hp.2.2.2.1 hd.1) (walkAll elseBody hp.2.2.2.2 hd.2)
  | _ => exact walk_undefining _ hp rfl

theorem walkAll (stmts : List Stmt) (hp : ∀ n ∈ Stmt.placesAll stmts, L.keep n)
    (hd : ∀ b ∈ Stmt.definitionsAll stmts, L.define u b) :
    Dressing L u e (Stmt.functionsAll stmts) (Session.walkAll u stmts) := by
  cases stmts with
  | nil => exact of_roams (Roams.walkAll [] hp fun _ hb => nomatch hb)
  | cons s rest =>
    rw [Stmt.placesAll, List.forall_mem_append] at hp
    rw [Stmt.definitionsAll, List.forall_mem_append] at hd
    exact bind (fun _ hf => hd.1 _ (s.definitions_of_functions hf)) (walk s hp.1 hd.1) fun _ => walkAll rest hp.2 hd.2

end

end Dressing

/-- A run of a unit that ends dresses the functions of the body of the unit. -/
theorem dresses_runBody (start : Underway (licence u (s.unit u).body) u e s) (ends : runBody u s = .ok () t) :
    Dresses (licence u (s.unit u).body) u e (s.unit u).body.functions s t := by
  have walks : Dressing (licence u (s.unit u).body) u e _ (walkAll u (s.unit u).body.statements) :=
    .walkAll _ (fun _ hn => hn) fun _ hb => ⟨rfl, hb⟩
  exact walks s () t start ends

/-- A body of a unit that may run goes by one name. -/
theorem Underway.named (h : Underway L u e s) : NamedOnce (s.unit u).body.functions := by
  obtain ⟨tree, current, mem⟩ := (h.ready.sane.coherent.placed u e h.alive h.entry).body
  exact h.ready.sane.numbered.named e tree current _ mem

/-- A wrapper that is new is for the function in whose place it is. -/
theorem Dresses.wrapper {functions : List (String × Body)} (start : Underway L u e s)
    (h : Dresses L u e functions s t) (licensed : ∀ f ∈ functions, L.define u f.2) (named : NamedOnce functions)
    (mem : (name, body) ∈ functions) (dressed : t.Dressed u name body v w)
    (free : (s.value v).kept? .wrapper = none) : t.form w = .wrapper (t.wrapperOf u e v name) := by
  obtain ⟨next, -⟩ := start.touches h.touches
  have standing : ∀ f ∈ functions, t.slot (t.unit u).scope f.2.node.id = some (.single (some v)) → t.Stands e f.2 v := by
    intro f hf slot
    obtain ⟨x, same, stands⟩ := next.ready.slots.made _ e f.2 _ (next.hasBody (licensed f hf)) slot
    cases same
    exact stands
  obtain ⟨⟨other, found⟩, hf, slot, form⟩ := h.wraps v w free dressed.kept
  obtain ⟨⟨code, hc, -, first⟩, -⟩ := standing _ mem dressed.slot
  obtain ⟨⟨code', hc', -, second⟩, -⟩ := standing _ hf slot
  obtain rfl : code = code' := Option.some.inj (hc.symm.trans hc')
  obtain rfl : body = found := Option.some.inj (first.symm.trans second)
  rw [named name other body mem hf]
  exact form

end Typeflow.Session
