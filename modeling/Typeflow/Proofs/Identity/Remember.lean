import Typeflow.Proofs.Generation
import Typeflow.Proofs.Registry.Manage
import Typeflow.Proofs.Registry.Steady

/-! What a session remembers about the host. Apart from a reload nothing that callers do makes it forget,
and between what they do no place in a memo table is without a value. -/
namespace Typeflow.Session

variable {s t q : Session}

def Attributed (s : Session) : Prop :=
  ∀ v name x, (s.form v).record? (.member name) = some x → x.index < s.records.size

namespace Attributed

theorem of_same (h : Attributed s) (values : t.values = s.values)
    (records : s.records.size ≤ t.records.size) : Attributed t := by
  intro v name x hx
  rw [form, value, values] at hx
  exact Nat.lt_of_lt_of_le (h v name x hx) records

/-- A new value has no attributes yet. -/
theorem withValue (h : Attributed s) {value : Value}
    (bare : ∀ name, value.form.record? (.member name) = none) : Attributed (s.withValue value) := by
  intro v name x hx
  rw [Session.withValue, form_push] at hx
  split at hx
  · rw [bare] at hx
    cases hx
  · exact h v name x hx

theorem setValue (h : Attributed s) {v : ValueId} {value : Value}
    (attributes : ∀ name x, value.form.record? (.member name) = some x →
      (s.form v).record? (.member name) = some x ∨ x.index < s.records.size) :
    Attributed (s.setValue v value) := by
  intro w name x hx
  rw [form_setValue] at hx
  split at hx
  · exact (attributes name x hx).elim (h v name x) id
  · exact h w name x hx

theorem change {R : Realm} (h : Attributed s) (c : Change R s t) : Attributed t := by
  have plain : ∀ {form : Form}, form.kind ≠ .userInstance → ∀ name, form.record? (.member name) = none := by
    intro form kind name
    cases form <;> first | rfl | exact absurd rfl kind
  cases c with
  | beside b => exact h.of_same b.values (Nat.le_of_eq (congrArg Array.size b.records).symm)
  | newRecord cap => exact h.of_same rfl (by simp)
  | setRecord | noteRecord => exact h.of_same rfl (by simp)
  | watch | newScope | setScope => exact h.of_same rfl (Nat.le_refl _)
  | make name description type form own bare hf => exact h.withValue (plain bare)
  | setForm v form kind own wraps attributes => exact h.setValue attributes
  | keep v slot other own unwrapped ho => exact h.setValue fun _ _ => .inl
  | makeInstance cls name description type form of there free hf =>
    refine (h.withValue (by rcases of with rfl | rfl <;> exact fun _ => rfl)).setValue fun name x hx => .inl ?_
    rwa [Session.withValue, form_push, if_neg (Nat.ne_of_lt there)]
  | makeObject object name description type form of suits free hf =>
    refine (h.withValue (plain ?_)).of_same rfl (Nat.le_refl _)
    rintro kind
    cases form <;> cases kind
    rcases of with of | ⟨_, of⟩ <;> cases of
  | makeConstant | makeAggregate | makeBound =>
    exact (h.withValue fun _ => rfl).of_same rfl (Nat.le_refl _)

end Attributed

/-- What is kept for objects, constants and classes stays, values keep their kinds, the host keeps what it
has, and no place in a memo table is left without a value. -/
structure Remembers (s t : Session) : Prop extends Retains s t where
  places : Finishes s t
  kinds : ∀ v, v.index < s.values.size → (t.form v).kind = (s.form v).kind
  hosted : Hosted s → Hosted t
  attributes : Attributed s → Attributed t
  host : s.host.Grows t.host
  options : t.options = s.options

namespace Remembers

theorem of_same (values : t.values = s.values) (tables : t.memoTables = s.memoTables)
    (host : s.host.Grows t.host) (options : t.options = s.options) (records : t.records = s.records) :
    Remembers s t where
  toRetains := .of_same values tables
  places := .of_same tables
  kinds v _ := by rw [form, form, value, value, values]
  hosted hosted o v hv := by
    rw [form, value, values]
    rw [show t.objectValues = s.objectValues from congrArg (·.1) tables] at hv
    exact hosted o v hv
  attributes attributed := attributed.of_same values (Nat.le_of_eq (congrArg Array.size records).symm)
  host := host
  options := options

theorem refl (s : Session) : Remembers s s := .of_same rfl rfl (.of_eq rfl) rfl rfl

theorem trans (h : Remembers s t) (g : Remembers t q) : Remembers s q where
  toRetains := h.toRetains.trans g.toRetains
  places := h.places.trans g.places
  kinds v hv := (g.kinds v (Nat.lt_of_lt_of_le hv h.size)).trans (h.kinds v hv)
  hosted hosted := g.hosted (h.hosted hosted)
  attributes attributed := g.attributes (h.attributes attributed)
  host := h.host.trans g.host
  options := g.options.trans h.options

theorem of_all {T : Session → Session → Prop} (h : ∀ s t, T s t → Remembers s t)
    (steps : Relation.ReflTransGen T s t) : Remembers s t := by
  induction steps with
  | refl => exact .refl s
  | tail _ step ih => exact ih.trans (h _ _ step)

theorem of_within {α : Type} {m : Analysis α} {Q : α → Prop} (h : Within .all Remembers m Q) (s : Session) :
    Remembers s (after m s) := h.whole refl trans s

theorem of_change {R : Realm} (c : Change R s t) : Remembers s t where
  toRetains := .of_change c
  places := .of_change c
  kinds := (Remote.of_change c).kind
  hosted := (Remote.of_change c).hosted
  attributes attributed := attributed.change c
  host := (Endures.of_change c).host
  options := (Remote.of_change c).options

private theorem of_recalled {L : Licence} {R : Realm} (h : Recalled L R s t) : Remembers s t := by
  have remote : Remote s t := h.through .refl .trans .of_change .of_reserves
  have attributes : Attributed s → Attributed t :=
    h.through (T := fun s t => Attributed s → Attributed t) (fun _ => id) (fun h g => g ∘ h)
      (fun c attributed => attributed.change c) fun b attributed =>
        attributed.of_same b.values (Nat.le_of_eq (congrArg Array.size b.records).symm)
  exact {
    toRetains := h.through .refl .trans .of_change .of_reserves
    places := h.places
    kinds := remote.kind
    hosted := remote.hosted
    attributes := attributes
    host := (Endures.spans.lookup h).host
    options := remote.options }

/-- A value is put in the place of another of its form, and has all that this one keeps. -/
theorem setValue {v : ValueId} {value : Value} (form : value.form = s.form v)
    (kept : ∀ w, (s.value v).kept? .instance_ = some w → value.kept? .instance_ = some w) :
    Remembers s (s.setValue v value) := by
  have same : ∀ w, (s.setValue v value).form w = s.form w := congr_form_setValue id form
  exact {
    toRetains := .setValue kept (.inl form)
    places := .of_same rfl
    kinds := fun w _ => by rw [same]
    hosted := fun hosted o w hw => by
      rw [same]
      simpa [Session.setValue] using hosted o w hw
    attributes := fun attributed => attributed.setValue fun _ _ hx => .inl (by rwa [← form])
    host := .of_eq rfl
    options := rfl }

theorem sustains : Sustains Remembers where
  refl := refl
  trans := trans
  change := of_change
  lookup := of_recalled
  names _ _ := of_same rfl rfl (.of_eq rfl) rfl rfl
  replace _ _ _ _ := setValue rfl fun _ => id
  wrap _ _ _ _ := by
    refine setValue rfl fun x hx => ?_
    rw [Value.kept?_keep, if_neg (by rintro ⟨⟩)]
    exact hx
  ref _ _ _ := of_same rfl rfl (.of_eq rfl) rfl rfl
  elsewhere other := of_same other.values other.tables other.host other.options other.records

theorem of_touch {L : Licence} {R : Realm} (touch : Touch L R s t) : Remembers s t := sustains.touch touch

theorem of_proceeds {L : Licence} {R : Realm} {α : Type} {m : Analysis α} {Q : α → Prop}
    (h : Proceeds (Touch L R) m Q s) : Remembers s (after m s) := of_all (fun _ _ => of_touch) h.1

theorem of_roams {L : Licence} {α : Type} {m : Analysis α} {Q : α → Prop} (h : Roams L .all m Q)
    (s : Session) : Remembers s (after m s) := of_proceeds (h s (Realm.closed_all s))

/-- One more module of the project is a value of its own. -/
theorem withListed (s : Session) (name path : String) : Remembers s (s.withListed name path) := by
  let value : Value := ⟨name, "module " ++ name, .module, .module ⟨⟨s.entries.size⟩, ⟨s.scopes.size⟩⟩, {}, []⟩
  have old : ∀ v : ValueId, v.index < s.values.size → (s.withEntry name path).form v = s.form v :=
    fun v hv => (form_push s value v).trans (if_neg (Nat.ne_of_lt hv))
  have made : Remembers s (s.withEntry name path) := {
    toRetains := .push (.of_same rfl) (show (s.withEntry name path).values = s.values.push value from rfl)
      (gives_of_own _ _ rfl)
    places := .of_same rfl
    kinds := fun v hv => by rw [old v hv]
    hosted := fun hosted o v hv => by
      obtain ⟨there, kind⟩ := hosted o v hv
      rw [old v there]
      exact ⟨by simpa [withEntry] using Nat.lt_succ_of_lt there, kind⟩
    attributes := fun attributed => by
      have added : Attributed (s.withValue value) := attributed.withValue fun _ => rfl
      exact added.of_same rfl (Nat.le_refl _)
    host := .of_eq rfl
    options := rfl }
  refine made.trans ?_
  unfold Session.withListed
  split
  · exact .refl _
  · exact of_same rfl rfl (.of_eq rfl) rfl rfl

theorem load (s : Session) : Remembers s (after load s) := sustains.load s

/-- Nothing that callers do makes the session forget, apart from a reload. -/
theorem operation {o : Operation} (other : o ≠ .reload) (s : Session) : Remembers s (after o.run s) :=
  sustains.operation (fun name path _ => withListed s name path) (fun same => absurd same other)
    fun _ _ _ _ => of_same rfl rfl (.of_eq rfl) rfl rfl

theorem afterAll {ops : List Operation} (others : ∀ o ∈ ops, o ≠ .reload) (s : Session) :
    Remembers s (afterAll ops s) := by
  induction ops generalizing s with
  | nil => exact .refl s
  | cons o rest ih =>
    exact (operation (others o List.mem_cons_self) s).trans (ih (fun o ho => others o (List.mem_cons_of_mem _ ho)) _)

end Remembers

/-- No key is being looked up: every place in a memo table has its value, which has been made. -/
structure AtRest (s : Session) : Prop where
  objects : ∀ o, s.objectValues.find? o ≠ some none
  constants : ∀ c, s.constants.find? c ≠ some none
  aggregates : ∀ vs, s.aggregates.find? vs ≠ some none
  bounds : ∀ p, s.boundMethods.find? p ≠ some none
  hosted : Hosted s
  attributes : Attributed s

namespace AtRest

private theorem of_empty (objects : s.objectValues.entries = []) (constants : s.constants.entries = [])
    (aggregates : s.aggregates.entries = []) (bounds : s.boundMethods.entries = [])
    (attributed : Attributed s) : AtRest s := by
  constructor <;> simp [Cache.find?, Hosted, *]

theorem remembers (h : AtRest s) (r : Remembers s t) : AtRest t where
  objects o ho := h.objects o (r.places.objects o ho)
  constants c hc := h.constants c (r.places.constants c hc)
  aggregates vs hvs := h.aggregates vs (r.places.aggregates vs hvs)
  bounds p hp := h.bounds p (r.places.bounds p hp)
  hosted := r.hosted h.hosted
  attributes := r.attributes h.attributes

/-- After a reload the memo tables are filled from nothing. -/
theorem reload (attributed : Attributed s) : AtRest (after reload s) := by
  have again : Attributed (after resetModules s) :=
    (Remembers.of_within Remembers.sustains.manages.resetModules s).attributes attributed
  have empty : AtRest (after clearCaches (after resetModules s)) :=
    of_empty rfl rfl rfl rfl (again.of_same rfl (Nat.le_refl _))
  rw [after_reload_equips]
  exact empty.remembers (.of_within Remembers.sustains.refreshes.reloaded _)

theorem operation (h : AtRest s) (o : Operation) : AtRest (after o.run s) := by
  by_cases reloads : o = .reload
  · rw [reloads]
    exact reload h.attributes
  · exact h.remembers (.operation reloads s)

theorem afterAll (h : AtRest s) (ops : List Operation) : AtRest (afterAll ops s) := by
  induction ops generalizing s with
  | nil => exact h
  | cons o rest ih => exact ih (h.operation o)

theorem create {options : Options} {host : Host} {hostRequests : List Request}
    (made : create options host hostRequests = .ok s) : AtRest s := by
  have empty : AtRest (blank options host hostRequests) := by
    refine of_empty rfl rfl rfl rfl fun v name x hx => ?_
    rw [form_of_le (Nat.zero_le _)] at hx
    cases hx
  rw [created_eq made]
  exact empty.remembers (.load _)

end AtRest

end Typeflow.Session
