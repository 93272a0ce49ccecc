import Typeflow.Proofs.Lookup.Frame
import Typeflow.Proofs.Offers.Paths
import Typeflow.Session.Evaluate
import Typeflow.Session.Queries

/-! Sessions that differ only in names without types and assignments, in who reads what and in the work that waits.
Such names may be made and readers noted in either of two sessions that look alike, and they still do. -/
namespace Typeflow

namespace NameMap

/-- The names with records of a kind are the same, and in the same order. -/
structure SameOn (on : VarId → Bool) (m n : NameMap VarId) : Prop where
  found : ∀ name, (n.find? name).filter on = (m.find? name).filter on
  listed : n.toList.filter (fun pair => on pair.2) = m.toList.filter fun pair => on pair.2

namespace SameOn

variable {on : VarId → Bool} {m n k : NameMap VarId}

theorem refl (on : VarId → Bool) (m : NameMap VarId) : SameOn on m m := ⟨fun _ => rfl, rfl⟩

theorem symm (h : SameOn on m n) : SameOn on n m := ⟨fun name => (h.found name).symm, h.listed.symm⟩

theorem trans (h : SameOn on m n) (g : SameOn on n k) : SameOn on m k :=
  ⟨fun name => (g.found name).trans (h.found name), g.listed.trans h.listed⟩

private theorem filter_insertPair {name : String} {x : VarId} {pairs : List (String × VarId)}
    (free : lookupPair name pairs = none) (blank : on x = false) :
    (insertPair name x pairs).filter (fun pair => on pair.2) = pairs.filter fun pair => on pair.2 := by
  induction pairs with
  | nil => simp [insertPair, blank]
  | cons pair rest ih =>
    rw [lookupPair] at free
    split at free
    · cases free
    · next other =>
      rw [insertPair, if_neg other]
      split
      · rw [List.filter_cons_of_neg (by simp [blank])]
      · rw [List.filter_cons, List.filter_cons, ih free]

/-- A name that is not there may be put in with a record of another kind. -/
theorem insert {name : String} {x : VarId} (free : m.find? name = none) (blank : on x = false) :
    SameOn on m (m.insert name x) := by
  refine ⟨fun other => ?_, filter_insertPair free blank⟩
  rw [find?_insert]
  split
  · next same => rw [same, free, Option.filter_some, blank]; rfl
  · rfl

/-- What is made of the names of the kind alone is the same. -/
theorem filterMap {α : Type} (h : SameOn on m n) {f : String → VarId → Option α}
    (bare : ∀ name x, on x = false → f name x = none) : n.filterMap f = m.filterMap f := by
  have strip : ∀ k : NameMap VarId, k.filterMap f =
      ⟨(k.toList.filter fun pair => on pair.2).filterMap fun pair => (f pair.1 pair.2).map (pair.1, ·)⟩ := by
    intro k
    rw [NameMap.filterMap, List.filterMap_filter]
    congr 2
    funext pair
    split
    · rfl
    · next none => rw [bare _ _ (by simpa using none)]; rfl
  rw [strip, strip, h.listed]

end SameOn

end NameMap

/-- The forms are the same, or those of an instance with the same attributes of those of a kind. -/
def Form.Alike (on : VarId → Bool) (a b : Form) : Prop :=
  b = a ∨ ∃ cls m n, a = .userInstance cls m ∧ b = .userInstance cls n ∧ NameMap.SameOn on m n

namespace Form.Alike

variable {on : VarId → Bool} {a b c : Form}

theorem refl (on : VarId → Bool) (a : Form) : Form.Alike on a a := .inl rfl

theorem symm (h : Form.Alike on a b) : Form.Alike on b a := by
  rcases h with rfl | ⟨cls, m, n, rfl, rfl, same⟩
  · exact .inl rfl
  · exact .inr ⟨cls, n, m, rfl, rfl, same.symm⟩

theorem trans (h : Form.Alike on a b) (g : Form.Alike on b c) : Form.Alike on a c := by
  rcases h with rfl | ⟨cls, m, n, rfl, rfl, same⟩
  · exact g
  · rcases g with rfl | ⟨_, _, k, ⟨⟩, rfl, also⟩
    · exact .inr ⟨cls, m, n, rfl, rfl, same⟩
    · exact .inr ⟨cls, m, k, rfl, rfl, same.trans also⟩

theorem kind (h : Form.Alike on a b) : b.kind = a.kind := by
  rcases h with rfl | ⟨cls, m, n, rfl, rfl, -⟩ <;> rfl

end Form.Alike

/-- The values are the same but for their forms, which look alike. -/
structure Value.Alike (on : VarId → Bool) (a b : Value) : Prop where
  rest : b = { a with form := b.form }
  form : Form.Alike on a.form b.form

namespace Value.Alike

variable {on : VarId → Bool} {a b c : Value}

theorem refl (on : VarId → Bool) (a : Value) : Value.Alike on a a := ⟨rfl, .refl on a.form⟩

theorem symm (h : Value.Alike on a b) : Value.Alike on b a := ⟨by rw [h.rest], h.form.symm⟩

theorem trans (h : Value.Alike on a b) (g : Value.Alike on b c) : Value.Alike on a c :=
  ⟨by rw [g.rest, h.rest], h.form.trans g.form⟩

theorem isModule (h : Value.Alike on a b) : b.isModule = a.isModule := by
  unfold Value.isModule
  rcases h.form with same | ⟨cls, m, n, ha, hb, -⟩
  · rw [same]
  · rw [ha, hb]

end Value.Alike

/-- The record is without types and places of assignment, like that of a name that is only read. It may have readers
and be of any cap. -/
def Variable.IsBlank (record : Variable) : Prop := record.types = .empty ∧ record.assignments = []

instance (record : Variable) : Decidable record.IsBlank := inferInstanceAs (Decidable (_ ∧ _))

/-- The scopes stand in the same place and bind the same names. -/
structure Scope.Alike (on : VarId → Bool) (a b : Scope) : Prop where
  kind : b.kind = a.kind
  outer : b.outer = a.outer
  names : NameMap.SameOn on a.names b.names

namespace Scope.Alike

variable {on : VarId → Bool} {a b c : Scope}

theorem refl (on : VarId → Bool) (a : Scope) : Scope.Alike on a a := ⟨rfl, rfl, .refl _ _⟩

theorem symm (h : Scope.Alike on a b) : Scope.Alike on b a := ⟨h.kind.symm, h.outer.symm, h.names.symm⟩

theorem trans (h : Scope.Alike on a b) (g : Scope.Alike on b c) : Scope.Alike on a c :=
  ⟨g.kind.trans h.kind, g.outer.trans h.outer, h.names.trans g.names⟩

end Scope.Alike

namespace Session

variable {s t r : Session}

def filled (s : Session) (x : VarId) : Bool := !decide (s.var x).IsBlank

/-- The sessions differ in nothing that a question about their values and names brings out: there may be further names
and attributes that are not filled, other readers and other work. -/
structure Alike (s t : Session) : Prop where
  frame : t = { s with
    values := t.values, records := t.records, scopes := t.scopes, queue := t.queue, metrics := t.metrics, log := t.log }
  types : ∀ x, t.types x = s.types x
  assignments : ∀ x, (t.var x).assignments = (s.var x).assignments
  made : t.values.size = s.values.size
  value : ∀ v, Value.Alike s.filled (s.value v) (t.value v)
  opened : t.scopes.size = s.scopes.size
  scope : ∀ c, Scope.Alike s.filled (s.scope c) (t.scope c)

namespace Alike

theorem filled (h : Alike s t) : t.filled = s.filled := by
  funext x
  have types : (t.var x).types = (s.var x).types := h.types x
  have same : (t.var x).IsBlank ↔ (s.var x).IsBlank := by
    rw [Variable.IsBlank, Variable.IsBlank, types, h.assignments]
  rw [Session.filled, Session.filled, decide_eq_decide.2 same]

theorem refl (s : Session) : Alike s s where
  frame := rfl
  types _ := rfl
  assignments _ := rfl
  made := rfl
  value _ := .refl _ _
  opened := rfl
  scope _ := .refl _ _

theorem symm (h : Alike s t) : Alike t s where
  frame := by rw [h.frame]
  types x := (h.types x).symm
  assignments x := (h.assignments x).symm
  made := h.made.symm
  value v := h.filled ▸ (h.value v).symm
  opened := h.opened.symm
  scope c := h.filled ▸ (h.scope c).symm

theorem trans (h : Alike s t) (g : Alike t r) : Alike s r where
  frame := by rw [g.frame, h.frame]
  types x := (g.types x).trans (h.types x)
  assignments x := (g.assignments x).trans (h.assignments x)
  made := g.made.trans h.made
  value v := (h.value v).trans (h.filled ▸ g.value v)
  opened := g.opened.trans h.opened
  scope c := (h.scope c).trans (h.filled ▸ g.scope c)

/-- Other parts of the sessions change in the same way. -/
theorem beside {s' t' : Session} (h : Alike s t)
    (frame : t' = { s' with
      values := t'.values, records := t'.records, scopes := t'.scopes, queue := t'.queue, metrics := t'.metrics
      log := t'.log })
    (first : s'.values = s.values ∧ s'.records = s.records ∧ s'.scopes = s.scopes)
    (second : t'.values = t.values ∧ t'.records = t.records ∧ t'.scopes = t.scopes) : Alike s' t' := by
  have same : s'.filled = s.filled := by
    funext x
    rw [Session.filled, Session.filled, var, var, first.2.1]
  refine ⟨frame, fun x => ?_, fun x => ?_, ?_, fun v => ?_, ?_, fun c => ?_⟩
  · rw [Session.types, Session.types, var, var, first.2.1, second.2.1]
    exact h.types x
  · rw [var, var, first.2.1, second.2.1]
    exact h.assignments x
  · rw [first.1, second.1, h.made]
  · rw [same, Session.value, Session.value, first.1, second.1]
    exact h.value v
  · rw [first.2.2, second.2.2, h.opened]
  · rw [same, Session.scope, Session.scope, first.2.2, second.2.2]
    exact h.scope c

/-- Only records and what waits change, and the records have the types and assignments that they had. -/
theorem of_records
    (frame : t = { s with records := t.records, queue := t.queue, metrics := t.metrics, log := t.log })
    (types : ∀ x, t.types x = s.types x) (assignments : ∀ x, (t.var x).assignments = (s.var x).assignments) :
    Alike s t := by
  have values : t.values = s.values := by rw [frame]
  have scopes : t.scopes = s.scopes := by rw [frame]
  refine ⟨?_, types, assignments, by rw [values], fun v => ?_, by rw [scopes], fun c => ?_⟩
  · rw [frame]
  · rw [Session.value, Session.value, values]
    exact .refl _ _
  · rw [Session.scope, Session.scope, scopes]
    exact .refl _ _

theorem addReader (x : VarId) (u : UnitId) (s : Session) : Alike s (after (addReader x u) s) := by
  have var : ∀ y, (after (Session.addReader x u) s).var y = _ := fun y => Fills.var_modify s x y _
  refine of_records rfl (Peeks.addReader x u s).types fun y => ?_
  rw [var]
  split
  · exact Variable.assignments_addReader _ _ _
  · rfl

theorem addReference (x : VarId) (place : Location) (s : Session) : Alike s (after (addReference x place) s) := by
  have var : ∀ y, (after (Session.addReference x place) s).var y = _ := fun y => Fills.var_modify s x y _
  refine of_records rfl (Fills.addReference x place s).types fun y => ?_
  rw [var]
  split <;> rfl

theorem enqueue (u : UnitId) (place : QueueEnd) (s : Session) : Alike s (after (enqueue u place) s) := by
  have queues := (queues_enqueue u place s).frame
  refine of_records ?_ (fun x => ?_) fun x => ?_ <;> rw [queues] <;> rfl

theorem notifyReaders (x : VarId) (s : Session) : Alike s (after (notifyReaders x) s) := by
  have told := notifies_notifyReaders x s
  refine of_records ?_ told.types fun y => ?_
  · rw [told.frame]
  · rw [var_notifyReaders]
    split
    · next own => rw [own.1]; rfl
    · rfl

theorem forM_notifyReaders (xs : List VarId) (s : Session) : Alike s (after (xs.forM Session.notifyReaders) s) :=
  after_forM total_notifyReaders (fun x _ still => still.trans (notifyReaders x _)) xs (refl s)

/-- The same value is made in both sessions. -/
theorem withValue (h : Alike s t) (value : Value) : Alike (s.withValue value) (t.withValue value) where
  frame := congrArg (fun u => u.withValue value) h.frame
  types := h.types
  assignments := h.assignments
  made := by rw [Session.withValue, Session.withValue, Array.size_push, Array.size_push, h.made]
  value v := by
    simp only [Session.withValue, value_push, h.made]
    split
    · exact .refl _ _
    · exact h.value v
  opened := h.opened
  scope := h.scope

/-- Values that look alike take the place of the same value. -/
theorem setValue (h : Alike s t) {v : ValueId} {a b : Value} (same : Value.Alike s.filled a b) :
    Alike (s.setValue v a) (t.setValue v b) where
  frame := congrArg (fun u => u.setValue v b) h.frame
  types := h.types
  assignments := h.assignments
  made := by simp [Session.setValue, h.made]
  value w := by
    rw [value_setValue, value_setValue, h.made]
    split
    · exact same
    · exact h.value w
  opened := h.opened
  scope := h.scope

/-- Scopes that look alike take the place of the same scope. -/
theorem setScope (h : Alike s t) {c : ScopeId} {a b : Scope} (same : Scope.Alike s.filled a b) :
    Alike { s with scopes := s.scopes.setIfInBounds c.index a } { t with scopes := t.scopes.setIfInBounds c.index b } where
  frame := congrArg (fun u => { u with scopes := t.scopes.setIfInBounds c.index b }) h.frame
  types := h.types
  assignments := h.assignments
  made := h.made
  value := h.value
  opened := by simp [h.opened]
  scope d := by
    rw [scope_setIfInBounds, scope_setIfInBounds, h.opened]
    split
    · exact same
    · exact h.scope d

theorem withoutNames (h : Alike s t) (c : ScopeId) : Alike (s.withoutNames c) (t.withoutNames c) :=
  h.setScope ⟨(h.scope c).kind, (h.scope c).outer, .refl _ _⟩

end Alike

def withNamed (s : Session) (c : ScopeId) (name : String) (record : Variable) : Session :=
  { s with
    records := s.records.push record
    scopes := s.scopes.setIfInBounds c.index
      { s.scope c with names := (s.scope c).names.insert name ⟨s.records.size⟩ } }

def withAttribute (s : Session) (v cls : ValueId) (attributes : NameMap VarId) (name : String) (record : Variable) :
    Session :=
  ({ s with records := s.records.push record }).setValue v
    { s.value v with form := .userInstance cls (attributes.insert name ⟨s.records.size⟩) }

/-- A name of a scope or an attribute of an instance is added that was not there, with a blank record. -/
inductive AddsBlank (s : Session) : Session → Prop
  | scope {c : ScopeId} {name : String} {record : Variable} (blank : record.IsBlank)
      (free : s.findName? c name = none) : AddsBlank s (s.withNamed c name record)
  | instance_ {v cls : ValueId} {attributes : NameMap VarId} {name : String} {record : Variable}
      (blank : record.IsBlank) (of : s.form v = .userInstance cls attributes)
      (free : attributes.find? name = none) : AddsBlank s (s.withAttribute v cls attributes name record)

private theorem setIfInBounds_getD {α : Type} (xs : Array α) (i : Nat) (d : α) : xs.setIfInBounds i (xs.getD i d) = xs := by
  refine Array.ext (by simp) fun j hj _ => ?_
  rw [Array.getElem_setIfInBounds (by simpa using hj)]
  split
  · next same =>
    subst same
    simp [Array.getD, show i < xs.size by simpa using hj]
  · rfl

private theorem isBlank_of_not_filled {x : VarId} (h : s.filled x = false) : (s.var x).IsBlank := by
  simpa [filled] using h

private theorem isBound_of_not_filled {x : VarId} (h : s.filled x = false) : (s.var x).isBound = false := by
  obtain ⟨types, assignments⟩ := isBlank_of_not_filled h
  rw [Variable.isBound, types, assignments]
  rfl

def noted (s : Session) : Option VarId → ValueSet × List Location
  | some x => (s.types x, (s.var x).assignments)
  | none => (.empty, [])

/-- A record that is not there is not filled. -/
theorem filled_of_le {x : VarId} (h : s.records.size ≤ x.index) : s.filled x = false := by
  rw [filled, Fills.var_of_le h]
  rfl

theorem noted_of_le {x : VarId} (h : s.records.size ≤ x.index) : s.noted (some x) = (.empty, []) := by
  rw [noted, Fills.types_of_le h, Fills.var_of_le h]
  rfl

namespace Alike

/-- A blank record is like one that is not there. -/
theorem pushBlank {record : Variable} (blank : record.IsBlank) (s : Session) :
    Alike s { s with records := s.records.push record } := by
  have var : ∀ x, ({ s with records := s.records.push record } : Session).var x =
      if x.index = s.records.size then record else s.var x := fun x => getD_push _ _ _ _
  refine of_records rfl (fun x => ?_) fun x => ?_
  · rw [Session.types, var]
    split
    · next new => rw [blank.1, Fills.types_of_le (Nat.le_of_eq new.symm)]
    · rfl
  · rw [var]
    split
    · next new =>
      rw [blank.2, Fills.var_of_le (Nat.le_of_eq new.symm)]
      rfl
    · rfl

theorem of_addsBlank (h : AddsBlank s t) : Alike s t := by
  have unfilled : s.filled ⟨s.records.size⟩ = false := filled_of_le (Nat.le_refl _)
  cases h with
  | @scope c name record blank free =>
    have pushed := pushBlank blank s
    have bindsName := (refl { s with records := s.records.push record }).setScope (c := c) (a := s.scope c)
      (b := { s.scope c with names := (s.scope c).names.insert name ⟨s.records.size⟩ })
      ⟨rfl, rfl, pushed.filled ▸ .insert free unfilled⟩
    rw [show s.scopes.setIfInBounds c.index (s.scope c) = s.scopes from setIfInBounds_getD _ _ _] at bindsName
    exact pushed.trans bindsName
  | @instance_ v cls attributes name record blank of free =>
    have pushed := pushBlank blank s
    have form : Form.Alike s.filled (s.form v) (.userInstance cls (attributes.insert name ⟨s.records.size⟩)) :=
      .inr ⟨cls, attributes, _, of, rfl, .insert free unfilled⟩
    have bindsAttribute := (refl { s with records := s.records.push record }).setValue (v := v) (a := s.value v)
      (b := { s.value v with form := .userInstance cls (attributes.insert name ⟨s.records.size⟩) })
      ⟨rfl, pushed.filled ▸ form⟩
    have same : ({ s with records := s.records.push record } : Session).setValue v (s.value v) =
        { s with records := s.records.push record } := by
      rw [Session.setValue, show s.values.setIfInBounds v.index (s.value v) = s.values from setIfInBounds_getD _ _ _]
    rw [same] at bindsAttribute
    exact pushed.trans bindsAttribute

theorem nameIn (c : ScopeId) (name : String) (s : Session) : Alike s (after (nameIn c name) s) := by
  rcases after_nameIn c name s with ends | ⟨free, ends⟩ <;> rw [ends]
  · exact refl s
  · exact of_addsBlank (.scope ⟨rfl, rfl⟩ free)

theorem attributeOf (v : ValueId) (name : String) (s : Session) : Alike s (after (attributeOf v name) s) := by
  rcases after_attributeOf v name s with ends | ⟨cls, attributes, of, free, ends⟩ <;> rw [ends]
  · exact refl s
  · exact of_addsBlank (.instance_ ⟨rfl, rfl⟩ of free)

section Facts

variable (h : Alike s t)
include h

theorem host : t.host = s.host := by rw [h.frame]

theorem options : t.options = s.options := by rw [h.frame]

theorem modules : t.modules = s.modules := by rw [h.frame]

theorem registrations : t.registrations = s.registrations := by rw [h.frame]

theorem objectValues : t.objectValues = s.objectValues := by rw [h.frame]

theorem constants : t.constants = s.constants := by rw [h.frame]

theorem aggregates : t.aggregates = s.aggregates := by rw [h.frame]

theorem boundMethods : t.boundMethods = s.boundMethods := by rw [h.frame]

theorem ref (r : RefId) : t.ref r = s.ref r := by rw [h.frame]; rfl

theorem entry (e : EntryId) : t.entry e = s.entry e := by rw [h.frame]; rfl

theorem unit (u : UnitId) : t.unit u = s.unit u := by rw [h.frame]; rfl

theorem form (v : ValueId) : Form.Alike s.filled (s.form v) (t.form v) := (h.value v).form

/-- Only instances may differ. -/
theorem form_cases (v : ValueId) :
    t.form v = s.form v ∧ (s.form v).kind ≠ .userInstance ∨
      ∃ cls m n, s.form v = .userInstance cls m ∧ t.form v = .userInstance cls n ∧ NameMap.SameOn s.filled m n := by
  rcases h.form v with same | differ
  · cases hv : s.form v with
    | userInstance cls m => exact .inr ⟨cls, m, m, rfl, same.trans hv, .refl _ _⟩
    | _ => exact .inl ⟨same.trans hv, by rintro ⟨⟩⟩
  · exact .inr differ

theorem value_cases (v : ValueId) :
    t.value v = s.value v ∧ (s.value v).kind ≠ .userInstance ∨
      ∃ cls m n, (s.value v).form = .userInstance cls m ∧ (t.value v).form = .userInstance cls n ∧
        NameMap.SameOn s.filled m n := by
  refine (h.form_cases v).imp_left fun same => ⟨?_, same.2⟩
  rw [(h.value v).rest, show (t.value v).form = (s.value v).form from same.1]

theorem name (v : ValueId) : (t.value v).name = (s.value v).name := by rw [(h.value v).rest]

theorem description (v : ValueId) : (t.value v).description = (s.value v).description := by rw [(h.value v).rest]

theorem memberType (v : ValueId) : (t.value v).memberType = (s.value v).memberType := by rw [(h.value v).rest]

theorem table (v : ValueId) : (t.value v).table = (s.value v).table := by rw [(h.value v).rest]

theorem kept (v : ValueId) : (t.value v).kept = (s.value v).kept := by rw [(h.value v).rest]

theorem isModule (v : ValueId) : (t.value v).isModule = (s.value v).isModule := (h.value v).isModule

private theorem kindOf (v : ValueId) : (t.value v).kind = (s.value v).kind := (h.value v).form.kind

theorem peek? (name : String) : t.peek? name = s.peek? name := by rw [Session.peek?, Session.peek?, h.modules]

theorem loadedModule? (name : String) : t.loadedModule? name = s.loadedModule? name := by
  simp only [Session.loadedModule?, h.peek?, h.ref, h.isModule]

theorem targetOf? (r : Registration) : t.targetOf? r = s.targetOf? r := by
  simp only [Session.targetOf?, h.loadedModule?]

theorem specialization? (m : ValueId) (name : String) : t.specialization? m name = s.specialization? m name := by
  rw [Session.specialization?, Session.specialization?, h.table]

theorem isList (type : Option ValueId) : t.isList type = s.isList type := by
  cases type with
  | none => rfl
  | some cls =>
    rcases h.form cls with same | ⟨_, _, _, hs, ht, -⟩
    · simp only [Session.isList, same, h.host]
    · simp only [Session.isList, hs, ht]

theorem bindsToInstance (v : ValueId) : t.bindsToInstance v = s.bindsToInstance v := by
  rcases h.form v with same | ⟨_, _, _, hs, ht, -⟩
  · simp only [Session.bindsToInstance, same, h.kindOf]
  · simp only [Session.bindsToInstance, hs, ht]

theorem isResolving (v : ValueId) : t.isResolving v = s.isResolving v := by
  rcases h.form v with same | ⟨_, _, _, hs, ht, -⟩
  · simp only [Session.isResolving, same]
  · simp only [Session.isResolving, hs, ht]

theorem scopesFrom (c : ScopeId) (depth : Nat) : t.scopesFrom c depth = s.scopesFrom c depth := by
  induction depth generalizing c with
  | zero => rfl
  | succ depth ih => simp only [Session.scopesFrom, (h.scope c).outer, ih]

theorem enclosing (c : ScopeId) : t.enclosing c = s.enclosing c := by
  rw [Session.enclosing, Session.enclosing, h.opened, h.scopesFrom]

theorem moduleScope (c : ScopeId) : t.moduleScope c = s.moduleScope c := by
  rw [Session.moduleScope, Session.moduleScope, h.enclosing]

theorem nextMethod : t.nextMethod = s.nextMethod := by
  rw [Session.nextMethod, Session.nextMethod, isV3, isV3, h.options]

theorem isBound (x : VarId) : (t.var x).isBound = (s.var x).isBound := by
  rw [Variable.isBound, Variable.isBound, h.assignments, show (t.var x).types = (s.var x).types from h.types x]

/-- A scope binds a name in both sessions or in neither. -/
theorem boundName (c : ScopeId) (name : String) :
    ((t.findName? c name).filter fun x => (t.var x).isBound) =
      (s.findName? c name).filter fun x => (s.var x).isBound := by
  have all : ∀ found : Option VarId, (found.filter fun x => (s.var x).isBound) =
      (found.filter s.filled).filter fun x => (s.var x).isBound := by
    intro found
    rw [Option.filter_filter]
    congr 1
    funext x
    cases bare : s.filled x with
    | true => simp
    | false => simp [isBound_of_not_filled bare]
  simp only [h.isBound]
  rw [all, all (s.findName? c name), Session.findName?, (h.scope c).names.found, Session.findName?]

theorem visibleName? (c : ScopeId) (name : String) : t.visibleName? c name = s.visibleName? c name := by
  simp only [Session.visibleName?, h.enclosing, (h.scope _).kind, h.boundName]

end Facts

/-- The mark of a class is set or taken away in both sessions. -/
theorem setResolving (h : Alike s t) (cls : ValueId) (on : Bool) :
    Alike (after (setResolving cls on) s) (after (setResolving cls on) t) := by
  rcases h.value_cases cls with ⟨same, -⟩ | ⟨_, _, _, hs, ht, -⟩
  · simp only [Session.setResolving, after_read, Session.form, same]
    split
    · simp only [setForm, after_modify, same]
      exact h.setValue (.refl _ _)
    · exact h
  · simp only [Session.setResolving, after_read, Session.form, hs, ht, after_pure]
    exact h

/-- A record that is there or not holds the same in both sessions. -/
theorem noted (h : Alike s t) (found : Option VarId) : t.noted found = s.noted found := by
  cases found with
  | none => rfl
  | some x =>
    rw [Session.noted, Session.noted]
    exact Prod.ext (h.types x) (h.assignments x)

/-- Records that hold nothing are like none. -/
theorem noted_of_filter (h : Alike s t) {a b : Option VarId} (same : b.filter s.filled = a.filter s.filled) :
    t.noted b = s.noted a := by
  have all : ∀ found : Option VarId, s.noted (found.filter s.filled) = s.noted found := by
    intro found
    cases found with
    | none => rfl
    | some x =>
      rw [Option.filter_some]
      split
      · rfl
      · next bare =>
        obtain ⟨types, assignments⟩ := isBlank_of_not_filled (by simpa using bare)
        exact (Prod.ext types assignments).symm
  rw [h.noted, ← all b, same, all]

/-- The names that have types. -/
theorem typedNames (h : Alike s t) {m n : NameMap VarId} (names : NameMap.SameOn s.filled m n) :
    t.typedNames n = s.typedNames m := by
  simp only [Session.typedNames, h.types]
  refine names.filterMap fun name x bare => ?_
  rw [show s.types x = .empty from (isBlank_of_not_filled bare).1]
  rfl

/-- The names of a module that are bound. -/
theorem boundNames (h : Alike s t) {m n : NameMap VarId} (names : NameMap.SameOn s.filled m n) :
    (n.filterMap fun _ x => if (t.var x).isBound then some (t.types x) else none) =
      m.filterMap fun _ x => if (s.var x).isBound then some (s.types x) else none := by
  simp only [h.isBound, h.types]
  refine names.filterMap fun name x bare => ?_
  rw [isBound_of_not_filled bare]
  rfl

end Alike

end Session
end Typeflow
