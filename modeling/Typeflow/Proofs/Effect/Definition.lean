import Typeflow.Proofs.Effect.Define

/-! What the statements that define functions and classes do the first time they are run. -/
namespace Typeflow.Session

private theorem scope_withName (s : Session) (c : ScopeId) (name : String) (d : ScopeId) :
    (s.withName c name).scope d =
      if d = c ∧ c.index < s.scopes.size then
        { s.scope c with names := (s.scope c).names.insert name ⟨s.records.size⟩ }
      else s.scope d := by
  simp only [scope, withName, getD_setIfInBounds, ScopeId.index_inj]

theorem findName?_withName (s : Session) (c : ScopeId) (name : String) (d : ScopeId) (other : String) :
    (s.withName c name).findName? d other =
      if (d = c ∧ c.index < s.scopes.size) ∧ other = name then some ⟨s.records.size⟩ else s.findName? d other := by
  rw [findName?, scope_withName]
  by_cases own : d = c ∧ c.index < s.scopes.size
  · rw [if_pos own, NameMap.find?_insert, findName?, own.1]
    by_cases same : other = name
    · rw [if_pos same, if_pos ⟨⟨rfl, own.2⟩, same⟩]
    · rw [if_neg same, if_neg fun h => same h.2]
  · rw [if_neg own, if_neg fun h => own h.1, findName?]

/-- Names were made, and places of assignment noted. -/
structure Fills (s t : Session) : Prop where
  frame : t = { s with records := t.records, scopes := t.scopes }
  scopes : t.scopes.size = s.scopes.size
  owner : ∀ c, (t.scope c).owner = (s.scope c).owner
  nodes : ∀ c, (t.scope c).nodeValues = (s.scope c).nodeValues
  names : ∀ c name x, s.findName? c name = some x → t.findName? c name = some x
  readers : ∀ x, (t.var x).readers = (s.var x).readers
  types : ∀ x, t.types x = s.types x
  records : s.records.size ≤ t.records.size
  found : ∀ c name x, t.findName? c name = some x → s.findName? c name = some x ∨ x.index < t.records.size

namespace Fills

variable {s t r : Session}

theorem refl (s : Session) : Fills s s :=
  ⟨rfl, rfl, fun _ => rfl, fun _ => rfl, fun _ _ _ h => h, fun _ => rfl, fun _ => rfl, Nat.le_refl _,
    fun _ _ _ h => .inl h⟩

theorem trans (h : Fills s t) (g : Fills t r) : Fills s r where
  frame := by rw [g.frame, h.frame]
  scopes := g.scopes.trans h.scopes
  owner c := (g.owner c).trans (h.owner c)
  nodes c := (g.nodes c).trans (h.nodes c)
  names c name x hx := g.names c name x (h.names c name x hx)
  readers x := (g.readers x).trans (h.readers x)
  types x := (g.types x).trans (h.types x)
  records := Nat.le_trans h.records g.records
  found c name x hx := by
    rcases g.found c name x hx with hx | new
    · exact (h.found c name x hx).imp_right fun there => Nat.lt_of_lt_of_le there g.records
    · exact .inr new

theorem var_push (s : Session) (cap : Nat) (x : VarId) :
    ({ s with records := s.records.push { cap } } : Session).var x =
      if x.index = s.records.size then { cap } else s.var x := by
  simp only [var, getD_push]

theorem var_of_le {x : VarId} (h : s.records.size ≤ x.index) : s.var x = default := by
  simp [var, Array.getElem?_eq_none h]

/-- A record that is not there has no types. -/
theorem types_of_le {x : VarId} (h : s.records.size ≤ x.index) : s.types x = .empty := by
  rw [Session.types, var_of_le h]
  rfl

/-- A new record has no readers and no types, like one that is not there. -/
theorem push (s : Session) (cap : Nat) : Fills s { s with records := s.records.push { cap } } := by
  refine ⟨rfl, rfl, fun _ => rfl, fun _ => rfl, fun _ _ _ h => h, fun x => ?_, fun x => ?_, by simp,
    fun _ _ _ h => .inl h⟩
  · rw [var_push]
    split
    · next h => rw [var_of_le (Nat.le_of_eq h.symm)]; rfl
    · rfl
  · rw [Session.types, var_push]
    split
    · next h => rw [types_of_le (Nat.le_of_eq h.symm)]
    · rfl

theorem nameIn (c : ScopeId) (name : String) (s : Session) : Fills s (after (nameIn c name) s) := by
  rcases after_nameIn c name s with ends | ⟨fresh, ends⟩ <;> rw [ends]
  · exact refl s
  · have pushed := push s (s.scope c).cap
    refine ⟨rfl, by simp [withName], fun d => ?_, fun d => ?_, fun d other x hx => ?_,
      pushed.readers, pushed.types, pushed.records, fun d other x hx => ?_⟩
    · rw [scope_withName]
      split
      · next h => rw [h.1]
      · rfl
    · rw [scope_withName]
      split
      · next h => rw [h.1]
      · rfl
    · rw [findName?_withName, if_neg, hx]
      rintro ⟨⟨rfl, -⟩, rfl⟩
      rw [fresh] at hx
      cases hx
    · rw [findName?_withName] at hx
      split at hx
      · cases hx
        exact .inr (by simp [withName])
      · exact .inl hx

theorem var_modify (s : Session) (x y : VarId) (change : Variable → Variable) :
    ({ s with records := s.records.modify x.index change } : Session).var y =
      if y = x ∧ x.index < s.records.size then change (s.var y) else s.var y := by
  simp only [var, getD_modify, VarId.index_inj]

/-- A change of a record that touches neither readers nor types. -/
theorem of_modify (x : VarId) (change : Variable → Variable)
    (readers : ∀ record, (change record).readers = record.readers)
    (types : ∀ record, (change record).types = record.types) (s : Session) :
    Fills s { s with records := s.records.modify x.index change } := by
  refine ⟨rfl, rfl, fun _ => rfl, fun _ => rfl, fun _ _ _ h => h, fun y => ?_, fun y => ?_, by simp,
    fun _ _ _ h => .inl h⟩
  · rw [var_modify]
    split
    · exact readers _
    · rfl
  · rw [Session.types, var_modify]
    split
    · exact types _
    · rfl

theorem addAssignment (x : VarId) (place : Location) (s : Session) :
    Fills s (after (addAssignment x place) s) :=
  of_modify x (Variable.assign place) (fun _ => rfl) (fun _ => rfl) s

theorem addReference (x : VarId) (place : Location) (s : Session) :
    Fills s (after (addReference x place) s) :=
  of_modify x (Variable.reference place) (fun _ => rfl) (fun _ => rfl) s

/-- A scope that is there has the name once it was asked for. -/
theorem nameIn_finds (c : ScopeId) (name : String) (s : Session) :
    ∃ x, Session.nameIn c name s = .ok x (after (Session.nameIn c name) s) ∧
      (c.index < s.scopes.size → (after (Session.nameIn c name) s).findName? c name = some x) := by
  cases h : s.findName? c name with
  | some x => exact ⟨x, by rw [after_of_ok (nameIn_of_some h), nameIn_of_some h], fun _ => by
      rw [after_of_ok (nameIn_of_some h), h]⟩
  | none => exact ⟨_, by rw [after_of_ok (nameIn_of_none h), nameIn_of_none h], fun there => by
      rw [after_of_ok (nameIn_of_none h), findName?_withName, if_pos ⟨⟨rfl, there⟩, rfl⟩]⟩

/-- The parameters of a function are named and assigned. -/
theorem params (scope : ScopeId) (place : Location) (params : List (String × ParamKind)) (s : Session) :
    ∃ t, (params.forM fun p => do
      Session.addAssignment (← Session.nameIn scope p.1) place : Analysis Unit) s = .ok () t ∧
        Fills s t ∧
        (scope.index < s.scopes.size → ∀ p ∈ params, ∃ x, t.findName? scope p.1 = some x) := by
  induction params generalizing s with
  | nil => exact ⟨s, rfl, refl s, fun _ _ h => nomatch h⟩
  | cons p rest ih =>
    obtain ⟨x, named, finds⟩ := nameIn_finds scope p.1 s
    have assigned : (do Session.addAssignment (← Session.nameIn scope p.1) place : Analysis Unit) s =
        .ok () (after (Session.addAssignment x place) (after (Session.nameIn scope p.1) s)) :=
      bind_of_ok named
    obtain ⟨t, run, filled, others⟩ := ih (after (Session.addAssignment x place)
      (after (Session.nameIn scope p.1) s))
    have first := (nameIn scope p.1 s).trans (addAssignment x place _)
    refine ⟨t, (bind_of_ok assigned).trans run, first.trans filled, fun there q hq => ?_⟩
    rcases List.mem_cons.1 hq with rfl | hq
    · exact ⟨x, filled.names scope q.1 x (finds there)⟩
    · exact others (by rwa [first.scopes]) q hq

end Fills

def withDefinition (s : Session) (entry : Option EntryId) (value : Value) : Session :=
  { s with
    values := s.values.push value
    entries :=
      match entry with
      | none => s.entries
      | some e =>
        s.entries.modify e.index fun entry =>
          { entry with definitions := entry.definitions ++ [⟨s.values.size⟩] } }

/-- The action makes a function or class with a body for a unit, and a scope of its own for it. A function has
its parameters named there. -/
def Makes (kind : ValueKind) (u : UnitId) (body : Body) (make : Analysis ValueId) : Prop :=
  ∀ s, ∃ scope filled value,
    scope.owner = some ⟨s.values.size⟩ ∧ scope.nodeValues = [] ∧ scope.names = {} ∧
    Fills { s with scopes := s.scopes.push scope } filled ∧
    value.form.code? = some ⟨(s.unit u).entry, some body, ⟨s.scopes.size⟩, none⟩ ∧
    value.form.kind = kind ∧ value.kept = [] ∧
    (∀ f, value.form = .function f → ∀ p ∈ f.params, ∃ x, filled.findName? f.scope p.1 = some x) ∧
    make s = .ok ⟨s.values.size⟩ (filled.withDefinition (s.unit u).entry value)

private theorem trackDefinition_run (entry : Option EntryId) (value : Value) (s : Session) :
    trackDefinition entry ⟨s.values.size⟩ { s with values := s.values.push value } =
      .ok () (s.withDefinition entry value) := by
  cases entry <;> rfl

theorem makes_newClass (u : UnitId) (body : Body) (name : String) :
    Makes .userClass u body (newClass u body name) := by
  intro s
  let scope : Scope :=
    { kind := .class_, outer := (s.unit u).scope, owner := some ⟨s.values.size⟩,
      cap := s.options.limits.variableTypes }
  let opened : Session := { s with scopes := s.scopes.push scope }
  let filled : Session := { opened with records := opened.records.push { cap := 0 } }
  let value : Value :=
    { name, description := "class " ++ name, memberType := .class_,
      form := .userClass
        ⟨⟨(s.unit u).entry, some body, ⟨s.scopes.size⟩, none⟩, ⟨s.records.size⟩, false⟩ }
  refine ⟨scope, filled, value, rfl, rfl, rfl, .push opened 0, rfl, rfl, rfl, (by rintro f ⟨⟩), ?_⟩
  have run : newClass u body name s =
      (trackDefinition (s.unit u).entry ⟨filled.values.size⟩ >>= fun _ => pure ⟨filled.values.size⟩)
        { filled with values := filled.values.push value } := rfl
  rw [run, bind_of_ok (trackDefinition_run (s.unit u).entry value filled)]
  rfl

theorem makes_newFunction (u : UnitId) (body : Body) (name : String)
    (params : List (String × ParamKind)) :
    Makes .function u body (newFunction u body name params) := by
  intro s
  let scope : Scope :=
    { kind := .function, outer := (s.unit u).scope, owner := some ⟨s.values.size⟩,
      cap := s.options.limits.variableTypes }
  let opened : Session := { s with scopes := s.scopes.push scope }
  let returning : Session :=
    { opened with records := opened.records.push { cap := s.options.limits.returnTypes } }
  let value : Value :=
    { name, description := signatureText name params,
      memberType := if decide ((s.scope (s.unit u).scope).kind = .class_) then .method else .function,
      form := .function
        ⟨⟨(s.unit u).entry, some body, ⟨s.scopes.size⟩, none⟩, params, ⟨s.records.size⟩⟩ }
  obtain ⟨filled, named, fills, found⟩ := Fills.params ⟨s.scopes.size⟩ (s.placeOf u body.node) params returning
  refine ⟨scope, filled, value, rfl, rfl, rfl, (Fills.push opened _).trans fills, rfl, rfl, rfl, ?_, ?_⟩
  · rintro f ⟨⟩
    exact found (by simp [returning, opened])
  have size : filled.values.size = s.values.size := by rw [fills.frame]
  have run : newFunction u body name params s =
      ((params.forM fun p => do addAssignment (← nameIn ⟨s.scopes.size⟩ p.1) (s.placeOf u body.node) :
          Analysis Unit) >>= fun _ =>
        newValue name value.description value.memberType value.form >>= fun v =>
          trackDefinition (s.unit u).entry v >>= fun _ => pure v) returning := rfl
  have made : newValue name value.description value.memberType value.form filled =
      .ok ⟨filled.values.size⟩ { filled with values := filled.values.push value } := rfl
  rw [run, bind_of_ok named, bind_of_ok made,
    bind_of_ok (trackDefinition_run (s.unit u).entry value filled), size]
  rfl

/-- A definition was made for a node in the scope of a unit; what was there before stays. -/
structure Defines (kind : ValueKind) (u : UnitId) (body : Body) (s t : Session) : Prop where
  free : (s.scope (s.unit u).scope).nodeValues.lookup body.node.id = none
  values : t.values.size = s.values.size + 1
  value : ∀ v, v.index ≠ s.values.size → t.value v = s.value v
  bare : (t.value ⟨s.values.size⟩).kept = []
  code : (t.form ⟨s.values.size⟩).code? =
    some ⟨(s.unit u).entry, some body, ⟨s.scopes.size⟩, none⟩
  kind : (t.form ⟨s.values.size⟩).kind = kind
  scopes : t.scopes.size = s.scopes.size + 1
  owner : ∀ c, (t.scope c).owner =
    if c.index = s.scopes.size then some ⟨s.values.size⟩ else (s.scope c).owner
  nodes : (s.unit u).scope.index < s.scopes.size → ∀ c n, (t.scope c).nodeValues.lookup n =
    if c = (s.unit u).scope ∧ n = body.node.id then some (.single (some ⟨s.values.size⟩))
    else (s.scope c).nodeValues.lookup n
  names : ∀ c name x, s.findName? c name = some x → t.findName? c name = some x
  found : ∀ c name x, t.findName? c name = some x → s.findName? c name = some x ∨ x.index < t.records.size
  params : ∀ f, t.form ⟨s.values.size⟩ = .function f → ∀ p ∈ f.params, ∃ x, t.findName? f.scope p.1 = some x
  records : s.records.size ≤ t.records.size
  readers : ∀ x, (t.var x).readers = (s.var x).readers
  types : ∀ x, t.types x = s.types x
  units : t.units = s.units
  queue : t.queue = s.queue
  nextNode : t.nextNode = s.nextNode
  entries : t.entries.size = s.entries.size
  entry : ∀ e, t.entry e =
    if (s.unit u).entry = some e ∧ e.index < s.entries.size then
      { s.entry e with definitions := (s.entry e).definitions ++ [⟨s.values.size⟩] }
    else s.entry e

theorem Defines.form {kind : ValueKind} {u : UnitId} {body : Body} {s t : Session} (h : Defines kind u body s t)
    (v : ValueId) (other : v.index ≠ s.values.size) : t.form v = s.form v :=
  congrArg Value.form (h.value v other)

private theorem entry_withDefinition (s : Session) (entry : Option EntryId) (value : Value) (e : EntryId) :
    (s.withDefinition entry value).entry e =
      if entry = some e ∧ e.index < s.entries.size then
        { s.entry e with definitions := (s.entry e).definitions ++ [⟨s.values.size⟩] }
      else s.entry e := by
  cases entry with
  | none => rw [if_neg (by simp)]; rfl
  | some f =>
    have tracked : (s.withDefinition (some f) value).entry e =
        { s with
          entries := s.entries.modify f.index fun entry =>
            { entry with definitions := entry.definitions ++ [⟨s.values.size⟩] } : Session }.entry e :=
      rfl
    rw [tracked, entry_modify]
    by_cases he : e = f
    · subst he
      simp only [true_and]
    · rw [if_neg fun h => he h.1, if_neg fun h => he (Option.some.inj h.1).symm]

private theorem scope_setNodeValue (s : Session) (c d : ScopeId) (n : NodeId) (values : ValueSet) :
    (after (setNodeValue c n values) s).scope d =
      if d = c ∧ c.index < s.scopes.size then
        { s.scope c with nodeValues := keepNodeValue n values (s.scope c).nodeValues }
      else s.scope d := by
  let kept : Scope := { s.scope c with nodeValues := keepNodeValue n values (s.scope c).nodeValues }
  have run : after (setNodeValue c n values) s =
      { s with scopes := s.scopes.setIfInBounds c.index kept } := rfl
  rw [run]
  simp only [Session.scope, getD_setIfInBounds, ScopeId.index_inj]
  rfl

private theorem owner_setNodeValue (s : Session) (c d : ScopeId) (n : NodeId) (values : ValueSet) :
    ((after (setNodeValue c n values) s).scope d).owner = (s.scope d).owner := by
  rw [scope_setNodeValue]
  split
  · next h => rw [h.1]
  · rfl

theorem findName?_setNodeValue (s : Session) (c d : ScopeId) (n : NodeId) (values : ValueSet)
    (name : String) : (after (setNodeValue c n values) s).findName? d name = s.findName? d name := by
  rw [findName?, scope_setNodeValue]
  split
  · next h => rw [h.1]; rfl
  · rfl

theorem lookup_setNodeValue (s : Session) (c d : ScopeId) (n m : NodeId) (values : ValueSet) :
    ((after (setNodeValue c n values) s).scope d).nodeValues.lookup m =
      if d = c ∧ m = n ∧ c.index < s.scopes.size then some values
      else (s.scope d).nodeValues.lookup m := by
  rw [scope_setNodeValue]
  by_cases hd : d = c
  · subst hd
    by_cases hs : d.index < s.scopes.size
    · simp only [true_and, hs, if_true, lookup_keepNodeValue, and_true]
    · simp only [hs, and_false, if_false]
  · simp only [hd, false_and, if_false]

theorem scope_push (s : Session) (scope : Scope) (d : ScopeId) :
    ({ s with scopes := s.scopes.push scope } : Session).scope d =
      if d.index = s.scopes.size then scope else s.scope d := by
  simp only [Session.scope, getD_push]

/-- A definition is made the first time and found from then on. -/
theorem definitionAt_run {kind : ValueKind} {u : UnitId} {body : Body} {make : Analysis ValueId}
    (makes : Makes kind u body make) (s : Session) :
    (∃ values, (s.scope (s.unit u).scope).nodeValues.lookup body.node.id = some values ∧
      definitionAt u body.node kind make s =
        .ok ((values.items.find? fun v => (s.value v).kind = kind).map (⟨·, false⟩)) s) ∨
    ((s.scope (s.unit u).scope).nodeValues.lookup body.node.id = none ∧
      ∃ t, definitionAt u body.node kind make s = .ok (some ⟨⟨s.values.size⟩, true⟩) t ∧
        Defines kind u body s t) := by
  let c := (s.unit u).scope
  let n := body.node.id
  cases hl : (s.scope c).nodeValues.lookup n with
  | some values =>
    refine .inl ⟨values, rfl, ?_⟩
    have found : nodeValueAnd c n (do return (.single (← make), ())) s = .ok (values, none) s := by
      simp only [nodeValueAnd, read_run, hl]
      rfl
    have run : definitionAt u body.node kind make s =
        (nodeValueAnd c n (do return (.single (← make), ())) >>= fun pair => do
          let s ← get
          return (pair.1.items.find? fun v => (s.value v).kind = kind).map (⟨·, pair.2.isSome⟩)) s := rfl
    rw [run, bind_of_ok found]
    rfl
  | none =>
    refine .inr ⟨rfl, ?_⟩
    let reserved := after (setNodeValue c n .empty) s
    obtain ⟨scope, filled, value, owner, nodeValues, names, fills, code, hkind, bare, params, made⟩ := makes reserved
    let v : ValueId := ⟨s.values.size⟩
    let made' := filled.withDefinition (s.unit u).entry value
    let t := after (setNodeValue c n (.single (some v))) made'
    have size : filled.values.size = s.values.size := by rw [fills.frame]; rfl
    have kept : nodeValueAnd c n (do return (.single (← make), ())) s =
        .ok (.single (some v), some ()) t := by
      have inner : (do return (ValueSet.single (← make), ()) : Analysis _) reserved =
          .ok (.single (some v), ()) made' := bind_of_ok made
      have run : nodeValueAnd c n (do return (ValueSet.single (← make), ())) s =
          ((do return (ValueSet.single (← make), ()) : Analysis _) >>= fun pair =>
            setNodeValue c n pair.1 >>= fun _ => pure (pair.1, some pair.2)) reserved := by
        simp only [nodeValueAnd, read_run, hl]
        rfl
      rw [run, bind_of_ok inner]
      rfl
    have values : t.values = s.values.push value := by
      have same : filled.values = s.values := by rw [fills.frame]; rfl
      exact congrArg (·.push value) same
    have newest : t.value v = value := by rw [Session.value, values, getD_push, if_pos rfl]
    have finds : definitionAt u body.node kind make s = .ok (some ⟨v, true⟩) t := by
      have run : definitionAt u body.node kind make s =
          (nodeValueAnd c n (do return (.single (← make), ())) >>= fun pair => do
            let s ← get
            return (pair.1.items.find? fun v => (s.value v).kind = kind).map
              (⟨·, pair.2.isSome⟩)) s := rfl
      have same : (t.value v).kind = kind := (congrArg Value.kind newest).trans hkind
      rw [run, bind_of_ok kept]
      change EStateM.Result.ok (([v].find? fun v => decide ((t.value v).kind = kind)).map
        fun v => (⟨v, true⟩ : Definition)) t = _
      rw [List.find?_cons_of_pos (by simpa using same)]
      rfl
    let opened : Session := { reserved with scopes := reserved.scopes.push scope }
    have reservedSize : reserved.scopes.size = s.scopes.size := by
      simp [reserved, setNodeValue]
    have filledSize : made'.scopes.size = s.scopes.size + 1 := by
      have same : filled.scopes.size = (reserved.scopes.push scope).size := fills.scopes
      rw [Array.size_push, reservedSize] at same
      exact same
    have entries : filled.entries = s.entries := by rw [fills.frame]; rfl
    have fresh : s.scope ⟨s.scopes.size⟩ = default := scope_of_le (Nat.le_refl _)
    refine ⟨t, finds, ?_⟩
    constructor
    case free => exact hl
    case values => rw [values, Array.size_push]
    case value =>
      intro w hw
      rw [Session.value, values, getD_push, if_neg hw]
      rfl
    case bare => exact (congrArg Value.kept newest).trans bare
    case code =>
      rw [← reservedSize]
      exact (congrArg (·.form.code?) newest).trans code
    case kind => exact (congrArg Value.kind newest).trans hkind
    case scopes =>
      rw [← filledSize]
      simp [t, setNodeValue]
    case owner =>
      intro d
      have same : (filled.scope d).owner = (opened.scope d).owner := fills.owner d
      rw [owner_setNodeValue, show (made'.scope d).owner = (filled.scope d).owner from rfl, same,
        scope_push, reservedSize]
      split
      · exact owner
      · exact owner_setNodeValue s c d n .empty
    case nodes =>
      intro hc d m
      have same : (filled.scope d).nodeValues = (opened.scope d).nodeValues := fills.nodes d
      have inRange : c.index < made'.scopes.size := by
        rw [filledSize]
        exact Nat.lt_succ_of_lt hc
      rw [lookup_setNodeValue, show (made'.scope d).nodeValues = (filled.scope d).nodeValues from rfl,
        same, scope_push, reservedSize]
      by_cases hd : d = c ∧ m = n
      · rw [if_pos ⟨hd.1, hd.2, inRange⟩, if_pos hd]
      · rw [if_neg fun h => hd ⟨h.1, h.2.1⟩, if_neg hd]
        split
        · next h =>
          have : d = ⟨s.scopes.size⟩ := ScopeId.index_inj.1 h
          rw [nodeValues, this, fresh]
          rfl
        · rw [lookup_setNodeValue, if_neg fun h => hd ⟨h.1, h.2.1⟩]
    case names =>
      intro d name x hx
      rw [findName?_setNodeValue]
      refine fills.names d name x ?_
      rw [findName?, scope_push, reservedSize]
      split
      · next h =>
        have : d = ⟨s.scopes.size⟩ := ScopeId.index_inj.1 h
        rw [findName?, this, fresh] at hx
        cases hx
      · rw [← findName?, findName?_setNodeValue]
        exact hx
    case found =>
      intro d name x hx
      rw [findName?_setNodeValue] at hx
      refine (fills.found d name x hx).imp_left fun old => ?_
      rw [findName?, scope_push] at old
      split at old
      · rw [names] at old
        cases old
      · rwa [← findName?, findName?_setNodeValue] at old
    case params =>
      intro f hf p hp
      obtain ⟨x, hx⟩ := params f ((congrArg Value.form newest).symm.trans hf) p hp
      exact ⟨x, by rw [findName?_setNodeValue]; exact hx⟩
    case records => exact fills.records
    case readers => exact fun x => fills.readers x
    case types => exact fun x => fills.types x
    case units =>
      have same : filled.units = s.units := by rw [fills.frame]; rfl
      exact same
    case queue =>
      have same : filled.queue = s.queue := by rw [fills.frame]; rfl
      exact same
    case nextNode =>
      have same : filled.nextNode = s.nextNode := by rw [fills.frame]; rfl
      exact same
    case entries =>
      have same : made'.entries.size = filled.entries.size := by
        cases h : (s.unit u).entry <;> simp [made', withDefinition, h]
      rw [← entries]
      exact same
    case entry =>
      intro e
      have look := entry_withDefinition filled (s.unit u).entry value e
      have entry : filled.entry e = s.entry e := by rw [Session.entry, entries]; rfl
      rw [entries, entry, size] at look
      exact look

end Typeflow.Session
