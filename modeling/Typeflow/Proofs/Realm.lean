import Typeflow.Proofs.Effect.Memo
import Typeflow.Proofs.Effect.Store

/-! What an evaluation can come across. A realm is a set of values and records that is closed under
everything that reading a session leads to: the names of scopes, the values kept for nodes, the parts
of values, the memo tables, the modules of the table and the replacements. -/
namespace Typeflow.Session

/-- A set of values and of records. -/
structure Realm where
  value : ValueId → Prop
  record : VarId → Prop

namespace Realm

/-- Everything. -/
def all : Realm := ⟨fun _ => True, fun _ => True⟩

variable (R : Realm)

def set (values : ValueSet) : Prop := ∀ v ∈ values.items, R.value v

def found (v : Found) : Prop := ∀ w, v = some w → R.value w

def override : Override → Prop
  | .append v | .extend v | .nextElement v => R.value v
  | _ => True

/-- What the table of a module says is asked of the session, whichever module it is. -/
def source : WrapperSource → Prop
  | .table _ => True
  | .fixed specialization => R.override specialization.override

/-- The parts of a value belong to the realm. -/
def form : Form → Prop
  | .builtinInstance cls => R.value cls
  | .constant type _ => R.found type
  | .multiple members => ∀ v ∈ members, R.value v
  | .userClass c => R.record c.bases
  | .userInstance cls attributes => R.value cls ∧ ∀ name x, attributes.find? name = some x → R.record x
  | .function f => R.record f.returns
  | .boundMethod function self => R.value function ∧ R.value self
  | .sequence type elements | .iterator type elements => R.found type ∧ R.record elements
  | .super cls instances => R.value cls ∧ R.set instances
  | .wrapper w => R.found w.wrapped ∧ R.source w.source
  | .builtinClass _ | .builtinFunction _ | .builtinMethod _ | .builtinProperty _ | .builtinModule _
  | .reflected _ | .module _ => True

def question : Question → Prop
  | .call args _ => ∀ a ∈ args, R.set a
  | .index i => R.set i
  | .member _ | .iterator | .elements => True

/-- Whatever is made next, or read from the session, belongs to the realm. -/
structure Closed (s : Session) : Prop where
  newValue : ∀ v, s.values.size ≤ v.index → R.value v
  newRecord : ∀ x, s.records.size ≤ x.index → R.record x
  types : ∀ x, R.record x → R.set (s.types x)
  names : ∀ c name x, s.findName? c name = some x → R.record x
  nodes : ∀ c n values, (s.scope c).nodeValues.lookup n = some values → R.set values
  owner : ∀ c v, (s.scope c).owner = some v → R.value v
  form : ∀ v, R.value v → R.form (s.form v)
  kept : ∀ v, R.value v → ∀ slot w, (s.value v).kept? slot = some w → R.value w
  objects : ∀ o v, s.objectValues.find? o = some (some v) → R.value v
  constants : ∀ c v, s.constants.find? c = some (some v) → R.value v
  aggregates : ∀ vs v, s.aggregates.find? vs = some (some v) → R.value v
  bounds : ∀ p v, s.boundMethods.find? p = some (some v) → R.value v
  modules : ∀ name r m, s.peek? name = some r → (s.ref r).module = some m → R.value m
  table : ∀ m q specialization, s.specialization? m q = some specialization →
    R.override specialization.override
  log : ∀ pair ∈ s.registrations.toList, ∀ r ∈ pair.2, R.override r.specialization.override

section Sets

variable {R : Realm}

theorem found_none : R.found none := nofun

theorem found_some {v : ValueId} (h : R.value v) : R.found (some v) := by
  rintro _ ⟨⟩
  exact h

theorem set_empty : R.set .empty := fun _ h => nomatch h

theorem set_single {v : Found} (h : R.found v) : R.set (.single v) := by
  cases v with
  | none => exact set_empty
  | some v =>
    intro w hw
    cases List.mem_singleton.1 hw
    exact h v rfl

theorem set_ofList {values : List Found} (h : ∀ v ∈ values, R.found v) : R.set (.ofList values) := by
  intro w hw
  obtain ⟨v, hv, rfl⟩ := List.mem_filterMap.1 (ValueList.mem_ofList.1 hw)
  exact h _ hv w rfl

theorem set_union {a b : ValueSet} (ha : R.set a) (hb : R.set b) (cap : Nat) :
    R.set (a.union b cap) := by
  cases a with
  | top => exact fun _ h => nomatch h
  | of a =>
    cases b with
    | top => exact fun _ h => nomatch h
    | of b =>
      intro w hw
      simp only [ValueSet.union, ValueSet.capped] at hw
      split at hw
      · cases hw
      · exact (ValueList.mem_union.1 hw).elim (ha w) (hb w)

theorem set_join {a b : ValueSet} (ha : R.set a) (hb : R.set b) : R.set (a.join b) :=
  set_union ha hb 0

theorem set_unionAll {sets : List ValueSet} (h : ∀ a ∈ sets, R.set a) (cap : Nat) :
    R.set (.unionAll sets cap) := by
  have loop : ∀ (sets : List ValueSet) (acc : ValueSet), R.set acc → (∀ a ∈ sets, R.set a) →
      R.set (ValueSet.unionFrom acc cap sets) := by
    intro sets
    induction sets with
    | nil => exact fun _ ha _ => ha
    | cons a rest ih =>
      intro acc hacc hall
      have grown := set_union hacc (hall a List.mem_cons_self) cap
      rw [ValueSet.unionFrom]
      split
      · exact fun _ hw => nomatch hw
      · next eq => exact ih _ (eq ▸ grown) fun b hb => hall b (List.mem_cons_of_mem _ hb)
  exact loop sets .empty set_empty h

theorem set_all (values : ValueSet) : Realm.all.set values := fun _ _ => trivial

private theorem form_all (form : Form) : Realm.all.form form := by
  cases form <;> simp [Realm.form, Realm.all, Realm.found, Realm.set]
  rename_i w
  cases w.source with
  | table m => trivial
  | fixed specialization => cases h : specialization.override <;> simp [source, override, h]

theorem question_all (q : Question) : Realm.all.question q := by
  cases q with
  | call args names => exact fun _ _ => set_all _
  | index i => exact set_all _
  | member | iterator | elements => trivial

theorem override_all (override : Override) : Realm.all.override override := by
  cases override <;> trivial

end Sets

/-- Everything is closed. -/
theorem closed_all (s : Session) : Realm.all.Closed s where
  newValue _ _ := trivial
  newRecord _ _ := trivial
  types _ _ := set_all _
  names _ _ _ _ := trivial
  nodes _ _ _ _ := set_all _
  owner _ _ _ := trivial
  form _ _ := form_all _
  kept _ _ _ _ _ := trivial
  objects _ _ _ := trivial
  constants _ _ _ := trivial
  aggregates _ _ _ := trivial
  bounds _ _ _ := trivial
  modules _ _ _ _ _ := trivial
  table _ _ _ _ := override_all _
  log _ _ _ _ := override_all _

end Realm

end Typeflow.Session
