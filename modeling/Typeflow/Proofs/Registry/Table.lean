import Mathlib.Data.List.Nodup
import Typeflow.Proofs.Realm.Touch
import Typeflow.Proofs.Registry.Log

/-! The modules that the names of a session are bound to, what registrations are meant for, and the
changes that leave both and the tables of replacements alone. -/
namespace Typeflow

theorem Value.isModule_eq (value : Value) :
    value.isModule =
      decide (value.kind = .builtinModule ∨ value.kind = .module ∨ value.kind = .multipleMembers) := by
  unfold isModule kind
  cases value.form <;> rfl

theorem Value.isModule_of_kind {value other : Value} (h : value.kind = other.kind) :
    value.isModule = other.isModule := by
  rw [isModule_eq, isModule_eq, h]

namespace Session

/-- What registrations for a function are meant for at the moment. -/
def targetOfKey? (s : Session) (key : String × String) : Option (ValueId × String) :=
  s.targetOf? ⟨key.1, key.2, ⟨.nothing, false⟩⟩

/-- Where a registration is meant to go depends on what it is for only. -/
theorem targetOf?_eq (s : Session) (r : Registration) : s.targetOf? r = s.targetOfKey? r.key := rfl

theorem loadedModule?_eq_some {s : Session} {name : String} {m : ValueId} :
    s.loadedModule? name = some m ↔ ∃ r, s.peek? name = some r ∧ (s.ref r).module = some m ∧
      (s.ref r).loaded = true ∧ (s.ref r).valid = true ∧ (s.value m).isModule = true := by
  simp only [loadedModule?, bind, Option.bind_eq_some_iff, Option.ite_none_right_eq_some,
    Bool.and_eq_true]
  constructor
  · rintro ⟨r, hr, _, hm, ⟨⟨hl, hv⟩, hk⟩, ⟨⟩⟩
    exact ⟨r, hr, hm, hl, hv, hk⟩
  · rintro ⟨r, hr, hm, hl, hv, hk⟩
    exact ⟨r, hr, m, hm, ⟨⟨hl, hv⟩, hk⟩, rfl⟩

theorem index_lt_of_isModule {s : Session} {m : ValueId} (h : (s.value m).isModule = true) :
    m.index < s.values.size :=
  Nat.lt_of_not_le fun hm => by rw [value_of_le hm] at h; cases h

theorem index_lt_of_loadedModule? {s : Session} {name : String} {m : ValueId}
    (h : s.loadedModule? name = some m) : m.index < s.values.size := by
  obtain ⟨_, _, _, _, _, module⟩ := loadedModule?_eq_some.1 h
  exact index_lt_of_isModule module

/-- A registration goes to a module that is loaded. -/
theorem loaded_of_targetOf? {s : Session} {r : Registration} {m : ValueId} {qualified : String}
    (h : s.targetOf? r = some (m, qualified)) : ∃ name, s.loadedModule? name = some m := by
  rw [targetOf?] at h
  cases own : s.loadedModule? r.module with
  | some other =>
    rw [own] at h
    cases h
    exact ⟨_, own⟩
  | none =>
    rw [own] at h
    obtain ⟨halves, _, h⟩ := Option.bind_eq_some_iff.1 h
    obtain ⟨other, above, h⟩ := Option.bind_eq_some_iff.1 h
    cases h
    exact ⟨_, above⟩

/-- The names are bound to the same modules. -/
def SameModules (s t : Session) : Prop := ∀ name, t.loadedModule? name = s.loadedModule? name

namespace SameModules

variable {s t q : Session}

theorem refl (s : Session) : SameModules s s := fun _ => rfl

theorem trans (h : SameModules s t) (g : SameModules t q) : SameModules s q :=
  fun name => (g name).trans (h name)

theorem targetOf? (h : SameModules s t) (r : Registration) : t.targetOf? r = s.targetOf? r := by
  simp only [Session.targetOf?, h _]

end SameModules

/-- Every name has a cell of its own, and what the cells and the memo table of the host hold are values
that have been made. -/
structure Tabled (s : Session) : Prop where
  cells : (s.modules.toList.map Prod.snd).Nodup
  placed : ∀ pair ∈ s.modules.toList, pair.2.index < s.refs.size
  modules : ∀ r m, (s.ref r).module = some m → m.index < s.values.size
  objects : ∀ o v, s.objectValues.find? o = some (some v) → v.index < s.values.size
  filed : Filed s

namespace Tabled

variable {s : Session}

theorem index_lt (h : Tabled s) {name : String} {r : RefId} (hr : s.peek? name = some r) :
    r.index < s.refs.size := h.placed _ (NameMap.mem_of_find? hr)

/-- Two names do not share a cell. -/
theorem name_inj (h : Tabled s) {name other : String} {r : RefId} (hn : s.peek? name = some r)
    (ho : s.peek? other = some r) : name = other := by
  have first := NameMap.mem_of_find? hn
  have second := NameMap.mem_of_find? ho
  exact congrArg Prod.fst (List.inj_on_of_nodup_map h.cells first second rfl)

end Tabled

/-- The change leaves alone the table of modules, the replacements and what is registered. -/
structure Aside (s t : Session) : Prop where
  registry : t.registry = s.registry
  size : s.values.size ≤ t.values.size
  isModule : ∀ m, m.index < s.values.size → (t.value m).isModule = (s.value m).isModule
  replacement : ∀ m qualified, t.specialization? m qualified = s.specialization? m qualified
  /-- Whatever is kept for a host object was kept before or is a value that has been made. -/
  objects : ∀ o v, t.objectValues.find? o = some (some v) →
    s.objectValues.find? o = some (some v) ∨ v.index < t.values.size

namespace Aside

variable {s t q : Session}

theorem modules (h : Aside s t) : t.modules = s.modules := congrArg (·.1) h.registry

theorem refs (h : Aside s t) : t.refs = s.refs := congrArg (·.2.1) h.registry

theorem registrations (h : Aside s t) : t.registrations = s.registrations := congrArg (·.2.2.1) h.registry

theorem options (h : Aside s t) : t.options = s.options := congrArg (·.2.2.2.1) h.registry

theorem hostRequests (h : Aside s t) : t.hostRequests = s.hostRequests := congrArg (·.2.2.2.2) h.registry

theorem of_same (registry : t.registry = s.registry) (values : t.values = s.values)
    (objects : t.objectValues = s.objectValues) : Aside s t where
  registry := registry
  size := by rw [values]
  isModule m _ := by rw [Session.value, Session.value, values]
  replacement m q := by rw [specialization?, specialization?, Session.value, Session.value, values]
  objects o v hv := .inl (objects ▸ hv)

theorem refl (s : Session) : Aside s s := .of_same rfl rfl rfl

theorem trans (h : Aside s t) (g : Aside t q) : Aside s q where
  registry := g.registry.trans h.registry
  size := Nat.le_trans h.size g.size
  isModule m hm := (g.isModule m (Nat.lt_of_lt_of_le hm h.size)).trans (h.isModule m hm)
  replacement m q := (g.replacement m q).trans (h.replacement m q)
  objects o v hv := by
    rcases g.objects o v hv with hv | hv
    · exact (h.objects o v hv).imp_right fun lt => Nat.lt_of_lt_of_le lt g.size
    · exact .inr hv

theorem of_reserves (b : Reserves s t) : Aside s t where
  registry := b.registry
  size := by rw [b.values]
  isModule m _ := by rw [Session.value, Session.value, b.values]
  replacement m q := by rw [specialization?, specialization?, Session.value, Session.value, b.values]
  objects o v hv := .inl ((b.objects o v).1 hv)

theorem registered? (h : Aside s t) (key : String × String) : t.registered? key = s.registered? key := by
  rw [Session.registered?, Session.registered?, h.registrations]

theorem sameModules (h : Aside s t) (tabled : Tabled s) : SameModules s t := by
  intro name
  have keeps : ∀ m, t.loadedModule? name = some m ↔ s.loadedModule? name = some m := by
    intro m
    rw [loadedModule?_eq_some, loadedModule?_eq_some]
    simp only [peek?, ref, h.modules, h.refs]
    refine exists_congr fun r => and_congr_right fun _ => and_congr_right fun hm => ?_
    rw [h.isModule m (tabled.modules r m hm)]
  exact Option.ext keeps

theorem tabled (h : Aside s t) (tabled : Tabled s) : Tabled t where
  cells := by
    rw [h.modules]
    exact tabled.cells
  placed := by
    rw [h.modules, h.refs]
    exact tabled.placed
  modules r m hm := by
    rw [ref, h.refs] at hm
    exact Nat.lt_of_lt_of_le (tabled.modules r m hm) h.size
  objects o v hv := by
    rcases h.objects o v hv with hv | hv
    · exact Nat.lt_of_lt_of_le (tabled.objects o v hv) h.size
    · exact hv
  filed := by
    constructor <;> rw [h.registrations]
    · exact tabled.filed.ordered
    · exact tabled.filed.own
    · exact tabled.filed.once

/-- Where there was no value there is no replacement. -/
theorem specialization?_of_le {m : ValueId} (h : s.values.size ≤ m.index) (qualified : String) :
    s.specialization? m qualified = none := by
  rw [specialization?, value_of_le h]
  rfl

/-- One more value without replacements. -/
theorem push {value : Value} (empty : value.table = {}) : Aside s (s.withValue value) where
  registry := rfl
  size := by simp [withValue]
  isModule m hm := by rw [withValue, value_push, if_neg (Nat.ne_of_lt hm)]
  replacement m q := by
    rw [specialization?, withValue, value_push]
    split
    · next same => rw [empty, specialization?_of_le (Nat.le_of_eq same.symm)]; rfl
    · rfl
  objects _ _ := .inl

/-- A value is put in the place of another of its kind with the same replacements. -/
theorem setValue {v : ValueId} {value : Value} (kind : value.kind = (s.value v).kind)
    (table : value.table = (s.value v).table) : Aside s (s.setValue v value) where
  registry := rfl
  size := by simp [Session.setValue]
  isModule m _ := by
    rw [value_setValue]
    split
    · next same => rw [Value.isModule_of_kind kind, same.1]
    · rfl
  replacement m q := by
    rw [specialization?, value_setValue]
    split
    · next same => rw [table, same.1]; rfl
    · rfl
  objects _ _ := .inl

end Aside

/-- The kinds of value that an object of the host may have. Modules of the project and sets of alternatives
are none of them. -/
def Foreign (kind : ValueKind) : Prop := kind ≠ .module ∧ kind ≠ .multipleMembers

/-- What the session keeps for objects of the host are values that have been made, and of such kinds. -/
def Hosted (s : Session) : Prop :=
  ∀ o v, s.objectValues.find? o = some (some v) → v.index < s.values.size ∧ Foreign (s.form v).kind

/-- Nothing that a module of the project is found by has changed either. -/
structure Remote (s t : Session) : Prop extends Aside s t where
  outside : t.outside = s.outside
  kind : ∀ v, v.index < s.values.size → (t.form v).kind = (s.form v).kind
  hosted : Hosted s → Hosted t

namespace Remote

variable {s t q : Session}

theorem of_same (registry : t.registry = s.registry) (values : t.values = s.values)
    (objects : t.objectValues = s.objectValues) (outside : t.outside = s.outside) :
    Remote s t where
  toAside := .of_same registry values objects
  outside := outside
  kind v _ := by rw [form, form, value, value, values]
  hosted hosted o v hv := by
    rw [form, value, values]
    exact hosted o v (objects ▸ hv)

theorem refl (s : Session) : Remote s s := .of_same rfl rfl rfl rfl

theorem trans (h : Remote s t) (g : Remote t q) : Remote s q where
  toAside := h.toAside.trans g.toAside
  outside := g.outside.trans h.outside
  kind v hv := (g.kind v (Nat.lt_of_lt_of_le hv h.size)).trans (h.kind v hv)
  hosted hosted := g.hosted (h.hosted hosted)

/-- A value is put in the place of another of its kind with the same replacements. -/
theorem setValue {v : ValueId} {value : Value} (kind : value.kind = (s.value v).kind)
    (table : value.table = (s.value v).table) : Remote s (s.setValue v value) := by
  have kinds : ∀ w, ((s.setValue v value).form w).kind = (s.form w).kind := congr_form_setValue Form.kind kind
  refine ⟨.setValue kind table, rfl, fun w _ => kinds w, fun hosted o w hw => ?_⟩
  rw [kinds]
  have size : (s.setValue v value).values.size = s.values.size := by simp [Session.setValue]
  rw [size]
  exact hosted o w hw

/-- A value is made, which may be kept for an object of the host if it is of such a kind. -/
theorem push {value : Value} (empty : value.table = {}) (values : t.values = s.values.push value)
    (registry : t.registry = s.registry) (outside : t.outside = s.outside)
    (objects : ∀ o v, t.objectValues.find? o = some (some v) →
      s.objectValues.find? o = some (some v) ∨ v = s.nextValue ∧ Foreign value.kind) :
    Remote s t := by
  have look : ∀ v, t.form v = if v.index = s.values.size then value.form else s.form v := by
    intro v
    rw [form, Session.value, values]
    exact form_push s value v
  have size : t.values.size = s.values.size + 1 := by rw [values, Array.size_push]
  refine ⟨?_, outside, fun v hv => ?_, fun hosted o v hv => ?_⟩
  · have pushed : Aside s (s.withValue value) := .push empty
    refine ⟨registry, by omega, fun m hm => ?_, fun m q => ?_, fun o v hv => ?_⟩
    · rw [Session.value, values]
      exact pushed.isModule m hm
    · rw [specialization?, Session.value, values]
      exact pushed.replacement m q
    · refine (objects o v hv).imp_right fun new => ?_
      rw [new.1, size]
      exact Nat.lt_succ_self _
  · rw [look, if_neg (Nat.ne_of_lt hv)]
  · rcases objects o v hv with old | ⟨rfl, kind⟩
    · obtain ⟨there, kind⟩ := hosted o v old
      rw [look, if_neg (Nat.ne_of_lt there)]
      exact ⟨by omega, kind⟩
    · have last : s.nextValue.index = s.values.size := rfl
      rw [look, if_pos last, size, last]
      exact ⟨Nat.lt_succ_self _, kind⟩

theorem of_reserves (b : Reserves s t) : Remote s t where
  toAside := .of_reserves b
  outside := b.outside
  kind v _ := by rw [form, form, value, value, b.values]
  hosted hosted o v hv := by
    rw [form, value, b.values]
    exact hosted o v ((b.objects o v).1 hv)

/-- What is made for an object of the host is of such a kind. -/
theorem kind_of_object {object : ObjectId} {form : Form}
    (of : form.object? = some object ∨ ∃ cls, form = .constant cls none) : Foreign form.kind := by
  rcases of with of | ⟨cls, rfl⟩
  · cases form <;> first | (constructor <;> intro h <;> cases h; done) | cases of
  · exact ⟨nofun, nofun⟩

theorem of_change {R : Realm} (c : Change R s t) : Remote s t := by
  cases c with
  | beside b => exact .of_reserves b.toReserves
  | watch | newRecord | setRecord | noteRecord | newScope | setScope =>
    exact .of_same rfl rfl rfl rfl
  | make => exact .push rfl rfl rfl rfl fun _ _ => .inl
  | setForm v form kind => exact .setValue kind rfl
  | keep v slot other => exact .setValue rfl rfl
  | makeInstance cls name description type form of there free h =>
    have same : (s.withValue ⟨name, description, type, form, {}, []⟩).value cls = s.value cls :=
      (value_push _ _ _).trans (if_neg (Nat.ne_of_lt there))
    have made : Remote s (s.withValue ⟨name, description, type, form, {}, []⟩) :=
      .push rfl rfl rfl rfl fun _ _ => .inl
    refine made.trans (.setValue ?_ ?_)
    · rw [same]
      rfl
    · rw [same]
      rfl
  | makeObject object name description type form of =>
    refine .push rfl rfl rfl rfl fun o v hv => ?_
    rcases Cache.find?_put hv with hv | hv
    · exact .inl hv
    · exact .inr ⟨Option.some.inj hv, kind_of_object of⟩
  | makeConstant | makeAggregate | makeBound => exact .push rfl rfl rfl rfl fun _ _ => .inl

theorem of_clearing {R : Realm} (c : Clearing R s t) : Remote s t := by
  cases c with
  | change c => exact .of_change c
  | names c => exact .of_same rfl rfl rfl rfl

theorem of_clearings {R : Realm} (c : Relation.ReflTransGen (Clearing R) s t) : Remote s t := by
  induction c with
  | refl => exact .refl s
  | tail _ c ih => exact ih.trans (.of_clearing c)

theorem of_changes {R : Realm} (c : Changes R s t) : Remote s t :=
  of_clearings (Relation.ReflTransGen.mono (fun _ _ c => .change c) _ _ c)

end Remote

theorem Aside.of_clearings {R : Realm} {s t : Session} (c : Relation.ReflTransGen (Clearing R) s t) :
    Aside s t := (Remote.of_clearings c).toAside

end Session

end Typeflow
