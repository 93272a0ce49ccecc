import Typeflow.Proofs.Effect.Definition
import Typeflow.Proofs.HostGrowth
import Typeflow.Proofs.Realm

/-! The smallest changes to what an evaluation can come across, each of which stays in a realm. -/
namespace Typeflow

def Entry.label (entry : Entry) := (entry.name, entry.path, entry.module, entry.removed)

/-- The host object that a value stands for. -/
def Form.object? : Form → Option ObjectId
  | .builtinClass object | .builtinFunction object | .builtinMethod object | .builtinProperty object
  | .builtinModule object | .reflected object => some object
  | _ => none

/-- Values of which a session has one, which all who ask for it share. -/
def Form.isShared : Form → Bool
  | .constant .. | .builtinInstance _ | .multiple _ | .boundMethod .. => true
  | form => form.object?.isSome

/-- The class of the program that a value is the instance of. -/
def Form.instanceOf? : Form → Option ValueId
  | .userInstance cls _ => some cls
  | _ => none

/-- The resource declares what it declared, and the modules that depend on it still do. -/
structure Resource.Grows (r q : Resource) : Prop where
  objects : q.objects = r.objects
  dependents : r.dependents ⊆ q.dependents

namespace Resource.Grows

variable {r q k : Resource}

theorem refl (r : Resource) : r.Grows r := ⟨rfl, List.Subset.refl _⟩

theorem trans (h : r.Grows q) (g : q.Grows k) : r.Grows k :=
  ⟨g.objects.trans h.objects, List.Subset.trans h.dependents g.dependents⟩

end Resource.Grows

namespace Session

/-- What the host refers to as a type is one, and so is what resources declare as one. -/
structure WellTyped (s : Session) : Prop where
  host : s.host.WellTyped
  resources : ∀ r name t, (name, some t) ∈ (s.resource r).objects.toList → s.host.IsType t

/-- If anything is to be relied on, the object is a type. -/
def KnowsType (s : Session) (o : ObjectId) : Prop := s.WellTyped → s.host.IsType o

def KnowsModule (s : Session) (o : ObjectId) : Prop := s.WellTyped → s.host.IsModule o

namespace KnowsType

variable {s : Session} {o p : ObjectId}

theorem of_id {id : TypeId} (h : s.host.typeFor? id = some o) : s.KnowsType o :=
  fun typed => typed.host.types id o h

theorem of_declared (h : s.host.declaredType? p = some o) : s.KnowsType o :=
  fun typed => typed.host.declared p o h

theorem of_typeOf (h : s.host.typeOf? p = some o) : s.KnowsType o := fun typed => typed.host.typeOf p o h

theorem of_returned (h : o ∈ s.host.returnsOf p) : s.KnowsType o := fun typed => typed.host.returns p o h

theorem of_applied {name : String} (h : s.host.instantiations.find? name = some o) : s.KnowsType o :=
  fun typed => typed.host.applied name o h

theorem of_resource {r : ResourceId} {name : String} (h : (name, some o) ∈ (s.resource r).objects.toList) :
    s.KnowsType o := fun typed => typed.resources r name o h

theorem of_classify (h : s.host.classify o = .type) : s.KnowsType o :=
  fun _ => Host.kind_of_classify h (by rintro ⟨⟩) (by rintro ⟨⟩)

end KnowsType

namespace KnowsModule

variable {s : Session} {o : ObjectId}

theorem of_imported {name : String} (h : s.host.importable.find? name = some o) : s.KnowsModule o :=
  fun typed => typed.host.imported name o h

theorem of_classify (h : s.host.classify o = .module) : s.KnowsModule o :=
  fun _ => Host.kind_of_classify h (by rintro ⟨⟩) (by rintro ⟨⟩)

end KnowsModule

def shelf (s : Session) := (s.resources, s.resourcesByPath)

/-- No resource goes away, and a path that is new leads to a resource that is there. -/
structure Shelves (s t : Session) : Prop where
  size : s.resources.size ≤ t.resources.size
  named : ∀ path r, t.resourcesByPath.find? path = some r →
    s.resourcesByPath.find? path = some r ∨ r.index < t.resources.size

namespace Shelves

variable {s t q : Session}

theorem of_same (shelf : t.shelf = s.shelf) : Shelves s t where
  size := Nat.le_of_eq (congrArg (·.1.size) shelf).symm
  named _ _ h := .inl (by rwa [show t.resourcesByPath = s.resourcesByPath from congrArg (·.2) shelf] at h)

theorem trans (h : Shelves s t) (g : Shelves t q) : Shelves s q where
  size := Nat.le_trans h.size g.size
  named path r found := by
    rcases g.named path r found with before | new
    · exact (h.named path r before).imp_right fun there => Nat.lt_of_lt_of_le there g.size
    · exact .inr new

end Shelves

/-- The host has what it had, and resources declare what they declared. -/
structure Endures (s t : Session) : Prop where
  host : s.host.Grows t.host
  resources : ∀ r, (s.resource r).Grows (t.resource r)
  shelves : Shelves s t

namespace Endures

variable {s t q : Session} {o : ObjectId}

theorem of_same (host : s.host.Grows t.host) (shelf : t.shelf = s.shelf) : Endures s t where
  host := host
  resources r := by
    rw [resource, resource, show t.resources = s.resources from congrArg (·.1) shelf]
    exact .refl _
  shelves := .of_same shelf

theorem refl (s : Session) : Endures s s := of_same (.of_eq rfl) rfl

theorem trans (h : Endures s t) (g : Endures t q) : Endures s q :=
  ⟨h.host.trans g.host, fun r => (h.resources r).trans (g.resources r), h.shelves.trans g.shelves⟩

theorem of_all {T : Session → Session → Prop} (h : ∀ s t, T s t → Endures s t)
    (steps : Relation.ReflTransGen T s t) : Endures s t := by
  induction steps with
  | refl => exact .refl s
  | tail _ step ih => exact ih.trans (h _ _ step)

theorem wellTyped (h : Endures s t) : t.WellTyped ↔ s.WellTyped where
  mp typed := ⟨h.host.wellTyped.1 typed.host, fun r name type declared => by
    rw [← (h.resources r).objects] at declared
    exact (h.host.isType type).1 (typed.resources r name type declared)⟩
  mpr typed := ⟨h.host.wellTyped.2 typed.host, fun r name type declared => by
    rw [(h.resources r).objects] at declared
    exact (h.host.isType type).2 (typed.resources r name type declared)⟩

theorem knowsType (h : Endures s t) (knows : s.KnowsType o) : t.KnowsType o :=
  fun typed => (h.host.isType o).2 (knows (h.wellTyped.1 typed))

theorem suits {form : Form} (h : Endures s t) (suits : s.WellTyped → s.host.Suits o form) :
    t.WellTyped → t.host.Suits o form := fun typed => h.host.suits.2 (suits (h.wellTyped.1 typed))

end Endures

theorem value_push (s : Session) (value : Value) (v : ValueId) :
    ({ s with values := s.values.push value } : Session).value v =
      if v.index = s.values.size then value else s.value v := by
  simp only [Session.value, getD_push]

theorem form_push (s : Session) (value : Value) (v : ValueId) :
    ({ s with values := s.values.push value } : Session).form v =
      if v.index = s.values.size then value.form else s.form v := by
  rw [form, value_push]
  split <;> rfl

theorem scope_setIfInBounds (s : Session) (c : ScopeId) (scope : Scope) (d : ScopeId) :
    ({ s with scopes := s.scopes.setIfInBounds c.index scope } : Session).scope d =
      if d = c ∧ c.index < s.scopes.size then scope else s.scope d := by
  simp only [Session.scope, getD_setIfInBounds, ScopeId.index_inj]

/-- The table of modules, the log of registrations and what both begin from. -/
def registry (s : Session) := (s.modules, s.refs, s.registrations, s.options, s.hostRequests)

theorem labels_modify (entries : Array Entry) (i : Nat) {f : Entry → Entry}
    (label : ∀ entry, (f entry).label = entry.label) :
    (entries.modify i f).map Entry.label = entries.map Entry.label := by
  refine Array.ext (by simp) fun j _ _ => ?_
  simp only [Array.getElem_map, Array.getElem_modify]
  split
  · exact label _
  · rfl

/-- What is left to callers: the names that the host announces, the index of paths and how modules are
labelled. -/
def outside (s : Session) := (s.host.moduleNames, s.modulesByPath, s.entries.map Entry.label)

theorem label_of_outside {s t : Session} (h : t.outside = s.outside) (e : EntryId) :
    (t.entry e).label = (s.entry e).label := by
  have labels : t.entries.map Entry.label = s.entries.map Entry.label := congrArg (·.2.2) h
  have look : ∀ xs : Array Entry, (xs.getD e.index default).label =
      (xs.map Entry.label).getD e.index (default : Entry).label := by
    intro xs
    simp only [Array.getD_eq_getD_getElem?, Array.getElem?_map]
    cases xs[e.index]? <;> rfl
  rw [entry, entry, look, look, labels]

/-- What an evaluation can come across besides the memo tables, and the watchers that it may add. -/
def surroundings (s : Session) :=
  (s.values, s.records, s.scopes, s.registry, s.outside, s.watchers)

def memoTables (s : Session) := (s.objectValues, s.constants, s.aggregates, s.boundMethods)

/-- The change leaves alone everything that an evaluation can come across. A memo table may take places
for keys, units may be made, the host may make types, and resources may get dependents. -/
structure Reserves (s t : Session) : Prop where
  surroundings : t.surroundings = s.surroundings
  size : s.units.size ≤ t.units.size
  unit : ∀ u : UnitId, u.index < s.units.size → t.unit u = s.unit u
  objects : ∀ o v, t.objectValues.find? o = some (some v) ↔ s.objectValues.find? o = some (some v)
  constants : ∀ c v, t.constants.find? c = some (some v) ↔ s.constants.find? c = some (some v)
  aggregates : ∀ vs v, t.aggregates.find? vs = some (some v) ↔ s.aggregates.find? vs = some (some v)
  bounds : ∀ p v, t.boundMethods.find? p = some (some v) ↔ s.boundMethods.find? p = some (some v)
  host : s.host.Grows t.host
  resources : ∀ r, (s.resource r).Grows (t.resource r)
  shelves : Shelves s t

namespace Reserves

variable {s t : Session}

theorem values (b : Reserves s t) : t.values = s.values := congrArg (·.1) b.surroundings

theorem records (b : Reserves s t) : t.records = s.records := congrArg (·.2.1) b.surroundings

theorem scopes (b : Reserves s t) : t.scopes = s.scopes := congrArg (·.2.2.1) b.surroundings

theorem registry (b : Reserves s t) : t.registry = s.registry := congrArg (·.2.2.2.1) b.surroundings

theorem outside (b : Reserves s t) : t.outside = s.outside := congrArg (·.2.2.2.2.1) b.surroundings

theorem watchers (b : Reserves s t) : t.watchers = s.watchers := congrArg (·.2.2.2.2.2) b.surroundings

theorem modules (b : Reserves s t) : t.modules = s.modules := congrArg (·.1) b.registry

theorem refs (b : Reserves s t) : t.refs = s.refs := congrArg (·.2.1) b.registry

theorem endures (b : Reserves s t) : Endures s t := ⟨b.host, b.resources, b.shelves⟩

end Reserves

/-- The change leaves the memo tables alone too. -/
structure Beside (s t : Session) : Prop extends Reserves s t where
  tables : t.memoTables = s.memoTables

namespace Beside

variable {s t : Session}

theorem of_units (same : t.surroundings = s.surroundings) (tables : t.memoTables = s.memoTables)
    (size : s.units.size ≤ t.units.size)
    (unit : ∀ u : UnitId, u.index < s.units.size → t.unit u = s.unit u)
    (endures : Endures s t) : Beside s t where
  surroundings := same
  size := size
  unit := unit
  host := endures.host
  resources := endures.resources
  shelves := endures.shelves
  tables := tables
  objects o v := by rw [show t.objectValues = s.objectValues from congrArg (·.1) tables]
  constants c v := by rw [show t.constants = s.constants from congrArg (·.2.1) tables]
  aggregates vs v := by rw [show t.aggregates = s.aggregates from congrArg (·.2.2.1) tables]
  bounds p v := by rw [show t.boundMethods = s.boundMethods from congrArg (·.2.2.2) tables]

theorem of_growth (same : t.surroundings = s.surroundings) (tables : t.memoTables = s.memoTables)
    (units : t.units = s.units) (endures : Endures s t) : Beside s t :=
  of_units same tables (Nat.le_of_eq (congrArg Array.size units).symm)
    (fun u _ => by rw [Session.unit, Session.unit, units]) endures

theorem of_same (same : t.surroundings = s.surroundings) (tables : t.memoTables = s.memoTables)
    (units : t.units = s.units) (host : t.host = s.host) (shelf : t.shelf = s.shelf) : Beside s t :=
  of_growth same tables units (.of_same (.of_eq host) shelf)

end Beside

def nextValue (s : Session) : ValueId := ⟨s.values.size⟩

def withValue (s : Session) (value : Value) : Session := { s with values := s.values.push value }

/-- One change, of which all that an evaluation can come across afterwards is in the realm. -/
inductive Change (R : Realm) (s : Session) : Session → Prop
  | beside {t : Session} (h : Beside s t) : Change R s t
  | watch (name : String) (u : UnitId) : Change R s (after (watch name u) s)
  | newRecord (cap : Nat) : Change R s { s with records := s.records.push { cap } }
  | setRecord (x : VarId) (record : Variable) (h : R.record x → R.set record.types) :
      Change R s { s with records := s.records.setIfInBounds x.index record }
  | noteRecord (x : VarId) (note : Variable → Variable)
      (h : ∀ record, (note record).types = record.types) :
      Change R s { s with records := s.records.modify x.index note }
  | newScope (scope : Scope) (owner : ∀ v, scope.owner = some v → R.value v)
      (names : scope.names = {}) (nodes : scope.nodeValues = []) :
      Change R s { s with scopes := s.scopes.push scope }
  | setScope (c : ScopeId) (names : NameMap VarId) (nodeValues : List (NodeId × ValueSet))
      (kept : ∀ name x, s.findName? c name = some x → names.find? name = some x)
      (named : ∀ name x, names.find? name = some x → R.record x)
      (nodes : ∀ n values, nodeValues.lookup n = some values → R.set values) :
      Change R s
        { s with scopes := s.scopes.setIfInBounds c.index { s.scope c with names, nodeValues } }
  | make (name description : String) (type : MemberType) (form : Form) (own : form.isShared = false)
      (bare : form.kind ≠ .userInstance) (h : R.form form) : Change R s (s.withValue ⟨name, description, type, form, {}, []⟩)
  /-- Wrappers are what they are for good, and so is the class of an instance. An attribute is new only with its
  record. -/
  | setForm (v : ValueId) (form : Form) (kind : form.kind = (s.form v).kind)
      (own : form.isShared = false) (wraps : (s.form v).kind ≠ .specialized)
      (attributes : ∀ name x, form.record? (.member name) = some x →
        (s.form v).record? (.member name) = some x ∨ x.index < s.records.size)
      (of : form.instanceOf? = (s.form v).instanceOf?) (h : R.value v → R.form form) :
      Change R s (s.setValue v { s.value v with form })
  /-- Slots other than those for the instance and for the wrapper of a function may be filled at any
  time. -/
  | keep (v : ValueId) (slot : Slot) (other : ValueId) (own : slot ≠ .instance_)
      (unwrapped : slot ≠ .wrapper) (h : R.value other) :
      Change R s (s.setValue v ((s.value v).keep slot other))
  | makeInstance (cls : ValueId) (name description : String) (type : MemberType) (form : Form)
      (of : form = .builtinInstance cls ∨ form = .userInstance cls {})
      (there : cls.index < s.values.size) (free : (s.value cls).kept? .instance_ = none)
      (h : R.form form) :
      Change R s ((s.withValue ⟨name, description, type, form, {}, []⟩).setValue cls
        ((s.value cls).keep .instance_ s.nextValue))
  | makeObject (object : ObjectId) (name description : String) (type : MemberType) (form : Form)
      (of : form.object? = some object ∨ ∃ cls, form = .constant cls none)
      (suits : s.WellTyped → s.host.Suits object form)
      (free : ∀ v, s.objectValues.find? object ≠ some (some v)) (h : R.form form) :
      Change R s { s.withValue ⟨name, description, type, form, {}, []⟩ with
        objectValues := s.objectValues.put object (some s.nextValue) }
  | makeConstant (name description : String) (cls : Found) (value : Constant)
      (free : ∀ v, s.constants.find? value ≠ some (some v)) (h : R.found cls) :
      Change R s { s.withValue ⟨name, description, .constant, .constant cls (some value), {}, []⟩ with
        constants := s.constants.put value (some s.nextValue) }
  | makeAggregate (name description : String) (members : List ValueId)
      (free : ∀ v, s.aggregates.find? (alternativesKey members) ≠ some (some v)) (h : ∀ v ∈ members, R.value v) :
      Change R s { s.withValue ⟨name, description, .multiple, .multiple members, {}, []⟩ with
        aggregates := s.aggregates.put (alternativesKey members) (some s.nextValue) }
  | makeBound (name description : String) (function self : ValueId)
      (free : ∀ v, s.boundMethods.find? (function, self) ≠ some (some v))
      (hf : R.value function) (hs : R.value self) :
      Change R s { s.withValue ⟨name, description, .method, .boundMethod function self, {}, []⟩ with
        boundMethods := s.boundMethods.put (function, self) (some s.nextValue) }

theorem Endures.of_change {R : Realm} {s t : Session} (c : Change R s t) : Endures s t := by
  cases c with
  | beside b => exact b.endures
  | _ => exact .of_same (.of_eq rfl) rfl

/-- Any number of changes. -/
def Changes (R : Realm) : Session → Session → Prop := Relation.ReflTransGen (Change R)

namespace Realm.Closed

variable {R : Realm} {s t : Session}

theorem reserves (h : R.Closed s) (b : Reserves s t) : R.Closed t where
  newValue := by simpa only [b.values] using h.newValue
  newRecord := by simpa only [b.records] using h.newRecord
  types := by simpa only [Session.types, var, b.records] using h.types
  names := by simpa only [findName?, scope, b.scopes] using h.names
  nodes := by simpa only [scope, b.scopes] using h.nodes
  owner := by simpa only [scope, b.scopes] using h.owner
  form := by simpa only [Session.form, Session.value, b.values] using h.form
  kept := by simpa only [Session.value, b.values] using h.kept
  objects := by simpa only [b.objects] using h.objects
  constants := by simpa only [b.constants] using h.constants
  aggregates := by simpa only [b.aggregates] using h.aggregates
  bounds := by simpa only [b.bounds] using h.bounds
  modules := by simpa only [peek?, ref, b.modules, b.refs] using h.modules
  table := by simpa only [specialization?, Session.value, b.values] using h.table
  log := by
    simpa only [show t.registrations = s.registrations from congrArg (·.2.2.1) b.registry] using h.log

/-- A change of records, of which those in the realm hold values of it. -/
theorem of_records (h : R.Closed s) {records : Array Variable} (size : s.records.size ≤ records.size)
    (types : ∀ x, R.record x → R.set (({ s with records } : Session).types x)) :
    R.Closed { s with records } :=
  { h with
    newRecord := fun x hx => h.newRecord x (Nat.le_trans size hx)
    types }

/-- A change of scopes that names records and keeps values of the realm. -/
theorem of_scopes (h : R.Closed s) {scopes : Array Scope}
    (names : ∀ c name x, ({ s with scopes } : Session).findName? c name = some x → R.record x)
    (nodes : ∀ c n values,
      (({ s with scopes } : Session).scope c).nodeValues.lookup n = some values → R.set values)
    (owner : ∀ c v, (({ s with scopes } : Session).scope c).owner = some v → R.value v) :
    R.Closed { s with scopes } :=
  { h with names, nodes, owner }

/-- A scope gets names and kept values of the realm. -/
theorem setScope (h : R.Closed s) (c : ScopeId) {names : NameMap VarId}
    {nodeValues : List (NodeId × ValueSet)}
    (named : ∀ name x, names.find? name = some x → R.record x)
    (nodes : ∀ n values, nodeValues.lookup n = some values → R.set values) :
    R.Closed
      { s with scopes := s.scopes.setIfInBounds c.index { s.scope c with names, nodeValues } } := by
  have look := scope_setIfInBounds s c { s.scope c with names, nodeValues }
  refine h.of_scopes (fun d name x => ?_) (fun d n values => ?_) fun d v => ?_
  · rw [findName?, look]
    split
    · exact named name x
    · exact h.names d name x
  · rw [look]
    split
    · exact nodes n values
    · exact h.nodes d n values
  · rw [look]
    split
    · exact h.owner c v
    · exact h.owner d v

/-- A value whose parts belong to the realm is put in the place of another. -/
theorem setValue (h : R.Closed s) {v : ValueId} {value : Value} (form : R.value v → R.form value.form)
    (kept : ∀ slot w, value.kept? slot = some w → R.value v → R.value w)
    (table : ∀ q specialization, value.table.find? q = some specialization →
      R.override specialization.override) : R.Closed (s.setValue v value) :=
  { h with
    newValue := fun w hw => h.newValue w (by simpa [Session.setValue] using hw)
    form := by
      intro w hw
      rw [form_setValue]
      split
      · next same => exact form (same.1 ▸ hw)
      · exact h.form w hw
    kept := by
      intro w hw slot other
      rw [value_setValue]
      split
      · next same => exact fun hk => kept slot other hk (same.1 ▸ hw)
      · exact h.kept w hw slot other
    table := by
      intro w q specialization
      rw [specialization?, value_setValue]
      split
      · exact table q specialization
      · exact h.table w q specialization }

theorem withValue (h : R.Closed s) {name description : String} {type : MemberType} {form : Form}
    (hf : R.form form) : R.Closed (s.withValue ⟨name, description, type, form, {}, []⟩) :=
  { h with
    newValue := fun v hv => h.newValue v (by
      simp only [Session.withValue, Array.size_push] at hv
      exact Nat.le_of_succ_le hv)
    form := by
      intro v hv
      rw [Session.withValue, form_push]
      split
      · exact hf
      · exact h.form v hv
    kept := by
      intro v hv slot other
      rw [Session.withValue, value_push]
      split
      · rintro ⟨⟩
      · exact h.kept v hv slot other
    table := by
      intro v q specialization
      rw [specialization?, Session.withValue, value_push]
      split
      · rintro ⟨⟩
      · exact h.table v q specialization }

/-- The value made next is in the realm, and so are those that are kept for a key from then on. -/
theorem of_put {κ : Type} [BEq κ] {cache : Cache κ ValueId} {key : κ} (h : R.Closed s)
    (found : ∀ k v, cache.find? k = some (some v) → R.value v) (k : κ) (v : ValueId)
    (hv : (cache.put key (some s.nextValue)).find? k = some (some v)) : R.value v := by
  rcases Cache.find?_put hv with hv | hv
  · exact found k v hv
  · cases hv
    exact h.newValue _ (Nat.le_refl _)

theorem change (h : R.Closed s) (c : Change R s t) : R.Closed t := by
  cases c with
  | beside b => exact h.reserves b.toReserves
  | newRecord cap =>
    refine h.of_records (by simp) fun x hx => ?_
    rw [Session.types, Fills.var_push]
    split
    · exact set_empty
    · exact h.types x hx
  | setRecord x record hr =>
    refine h.of_records (by simp) fun y hy => ?_
    rw [Session.types, var_setIfInBounds]
    split
    · next same => exact hr (same.1 ▸ hy)
    · exact h.types y hy
  | noteRecord x note hn =>
    refine h.of_records (by simp) fun y hy => ?_
    rw [Session.types, Fills.var_modify]
    split
    · rw [hn]
      exact h.types y hy
    · exact h.types y hy
  | newScope scope owner names nodes =>
    refine h.of_scopes (fun c name x => ?_) (fun c n values => ?_) fun c v => ?_
    · rw [findName?, scope_push]
      split
      · rw [names]
        rintro ⟨⟩
      · exact h.names c name x
    · rw [scope_push]
      split
      · rw [nodes]
        rintro ⟨⟩
      · exact h.nodes c n values
    · rw [scope_push]
      split
      · exact owner v
      · exact h.owner c v
  | watch name u => exact { h with }
  | setScope c names nodeValues kept named nodes => exact h.setScope c named nodes
  | make name description type form own bare hf => exact h.withValue hf
  | setForm v form kind own wraps attributes of hf =>
    exact h.setValue hf (fun slot w hw hv => h.kept v hv slot w hw) fun q specialization =>
      h.table v q specialization
  | keep v slot other own unwrapped ho =>
    refine h.setValue (h.form v) (fun asked w hw hv => ?_) fun q specialization =>
      h.table v q specialization
    rw [Value.kept?_keep] at hw
    split at hw
    · cases hw
      exact ho
    · exact h.kept v hv asked w hw
  | makeInstance cls name description type form of there free hf =>
    refine (h.withValue hf).setValue ?_ (fun asked w hw hv => ?_) fun q specialization =>
      h.table cls q specialization
    · exact h.form cls
    · rw [Value.kept?_keep] at hw
      split at hw
      · cases hw
        exact h.newValue _ (Nat.le_refl _)
      · exact h.kept cls hv asked w hw
  | makeObject object name description type form of suits free hf =>
    exact { h.withValue hf with objects := h.of_put h.objects }
  | makeConstant name description cls value free hc =>
    have parts : R.form (.constant cls (some value)) := hc
    exact { h.withValue parts with constants := h.of_put h.constants }
  | makeAggregate name description members free hm =>
    have parts : R.form (.multiple members) := hm
    exact { h.withValue parts with aggregates := h.of_put h.aggregates }
  | makeBound name description function self free hf hs =>
    have parts : R.form (.boundMethod function self) := ⟨hf, hs⟩
    exact { h.withValue parts with bounds := h.of_put h.bounds }

theorem changes (h : R.Closed s) (c : Changes R s t) : R.Closed t := by
  induction c with
  | refl => exact h
  | tail _ c ih => exact ih.change c

theorem clearNames (h : R.Closed s) (c : ScopeId) : R.Closed (after (clearNames c) s) :=
  h.setScope c nofun (h.nodes c)

end Realm.Closed

end Session

end Typeflow
