import Typeflow.Proofs.Identity.Truthful
import Typeflow.Proofs.Lookup.Frame

/-! Classes of the program have one instance each, which they keep. -/
namespace Typeflow.Session

variable {s t q : Session}

/-- Every instance of a class of the program is the one that the class keeps. -/
def OneInstance (s : Session) : Prop := ∀ v cls, (s.form v).instanceOf? = some cls → s.exemplar? cls = some v

/-- Classes keep the instances that they have, and an instance that is made is kept. -/
structure KeepsInstances (s t : Session) : Prop where
  kept : ∀ cls v, s.exemplar? cls = some v → t.exemplar? cls = some v
  made : ∀ v cls, (t.form v).instanceOf? = some cls → (s.form v).instanceOf? = some cls ∨ t.exemplar? cls = some v

theorem OneInstance.keeps (h : OneInstance s) (g : KeepsInstances s t) : OneInstance t := by
  intro v cls form
  rcases g.made v cls form with before | now
  · exact g.kept cls v (h v cls before)
  · exact now

namespace KeepsInstances

theorem of_values (values : t.values = s.values) : KeepsInstances s t where
  kept cls v hv := by rwa [exemplar?, value, values]
  made v cls form := .inl (by rwa [Session.form, value, values] at form)

theorem refl (s : Session) : KeepsInstances s s := of_values rfl

theorem trans (h : KeepsInstances s t) (g : KeepsInstances t q) : KeepsInstances s q where
  kept cls v hv := g.kept cls v (h.kept cls v hv)
  made v cls form := by
    rcases g.made v cls form with before | now
    · exact (h.made v cls before).imp_right (g.kept cls v)
    · exact .inr now

theorem of_push {value : Value} (values : t.values = s.values.push value) (bare : value.kept = [])
    (own : value.form.instanceOf? = none) : KeepsInstances s t := by
  refine trans (t := s.withValue value) ⟨fun cls v hv => ?_, fun v cls form => ?_⟩ (of_values values)
  · rwa [exemplar?_push bare]
  · rw [Session.withValue, form_push] at form
    split at form
    · rw [own] at form
      cases form
    · exact .inl form

theorem setValue {v : ValueId} {value : Value} (form : value.form.instanceOf? = (s.form v).instanceOf?)
    (kept : ∀ w, (s.value v).kept? .instance_ = some w → value.kept? .instance_ = some w) :
    KeepsInstances s (s.setValue v value) where
  kept cls w hw := by
    rw [exemplar?, value_setValue]
    split
    · next same => exact kept w (same.1 ▸ hw)
    · exact hw
  made w cls hw := .inl (by rwa [congr_form_setValue Form.instanceOf? form w] at hw)

theorem of_change {R : Realm} (c : Change R s t) : KeepsInstances s t := by
  have plain : ∀ {form : Form}, form.kind ≠ .userInstance → form.instanceOf? = none := by
    intro form kind
    cases form <;> first | rfl | exact absurd rfl kind
  cases c with
  | beside b => exact of_values b.values
  | watch | newRecord | setRecord | noteRecord | newScope | setScope => exact of_values rfl
  | make name description type form own bare => exact of_push rfl rfl (plain bare)
  | makeConstant | makeAggregate | makeBound => exact of_push rfl rfl rfl
  | makeObject object name description type form of =>
    refine of_push rfl rfl (plain fun kind => ?_)
    rcases of with own | ⟨cls, rfl⟩
    · cases form <;> first | (cases kind; done) | cases own
    · cases kind
  | setForm v form kind own wraps attributes of => exact setValue of fun _ => id
  | keep v slot other own =>
    refine setValue rfl fun w hw => ?_
    rw [Value.kept?_keep, if_neg own.symm]
    exact hw
  | makeInstance cls name description type form of there free =>
    let value : Value := ⟨name, description, type, form, {}, []⟩
    have looks : ∀ other, (s.withInstance cls value).exemplar? other =
        if other = cls then some s.nextValue else s.exemplar? other := exemplar?_withInstance rfl there
    refine ⟨fun other w hw => (looks other).trans ?_, fun w other hw => ?_⟩
    · split
      · next same =>
        rw [exemplar?, same, free] at hw
        cases hw
      · exact hw
    · replace hw : ((s.withInstance cls value).form w).instanceOf? = some other := hw
      rw [form_withInstance there, Session.withValue, form_push] at hw
      split at hw
      · next new =>
        obtain rfl : w = s.nextValue := ValueId.index_inj.1 new
        rcases of with rfl | rfl
        · cases hw
        · obtain rfl : cls = other := Option.some.inj hw
          exact .inr ((looks cls).trans (if_pos rfl))
      · exact .inl hw

theorem sustains : Sustains KeepsInstances where
  refl := refl
  trans := trans
  change := of_change
  lookup c := c.through refl trans of_change fun b => of_values b.values
  names _ _ := of_values rfl
  replace _ _ _ _ := setValue rfl fun _ => id
  wrap _ _ _ _ := by
    refine setValue rfl fun _ hw => ?_
    rw [Value.kept?_keep, if_neg (by nofun)]
    exact hw
  ref _ _ _ := of_values rfl
  elsewhere other := of_values other.values

end KeepsInstances

namespace OneInstance

theorem afterAll (h : OneInstance s) (ops : List Operation) : OneInstance (Session.afterAll ops s) := by
  induction ops generalizing s with
  | nil => exact h
  | cons o rest ih =>
    refine ih (h.keeps (KeepsInstances.sustains.operation (fun name path _ => ?_) (fun _ _ => ?_) fun _ _ _ _ => ?_))
    · exact .of_push (values_withListed s name path) rfl rfl
    · exact .of_values rfl
    · exact .of_values rfl

theorem create {options : Options} {host : Host} {hostRequests : List Request}
    (made : Session.create options host hostRequests = .ok s) : OneInstance s := by
  rw [created_eq made]
  have start : OneInstance (blank options host hostRequests) := by
    intro v cls form
    cases form
  exact start.keeps (KeepsInstances.sustains.load _)

end OneInstance

end Typeflow.Session
