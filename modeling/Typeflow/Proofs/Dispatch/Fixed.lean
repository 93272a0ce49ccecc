import Typeflow.Proofs.Identity.Remember

/-! What the evaluation of a program leaves as it is about a value: its kind, and its form if others share the
value. -/
namespace Typeflow

/-- Only definitions of the program, their instances and what is made for them have a form of their own. -/
theorem Form.isShared_of_kind {form other : Form} (kind : form.kind = other.kind) (own : form.isShared = false) :
    other.isShared = false := by
  cases form <;> cases other <;> cases kind <;> first | rfl | cases own

namespace Session

variable {s t q : Session}

/-- Values are of the kind that they were of, and those that are shared have their form for good. -/
structure Fixes (s t : Session) : Prop where
  size : s.values.size ≤ t.values.size
  kind : ∀ v, v.index < s.values.size → (t.form v).kind = (s.form v).kind
  shared : ∀ v, v.index < s.values.size → (s.form v).isShared = true → t.form v = s.form v

namespace Fixes

theorem of_forms (size : s.values.size ≤ t.values.size)
    (forms : ∀ v, v.index < s.values.size → t.form v = s.form v) : Fixes s t :=
  ⟨size, fun v there => by rw [forms v there], fun v there _ => forms v there⟩

theorem of_values (values : t.values = s.values) : Fixes s t :=
  of_forms (by rw [values]) fun v _ => by rw [form, form, value, value, values]

theorem refl (s : Session) : Fixes s s := of_values rfl

theorem trans (h : Fixes s t) (g : Fixes t q) : Fixes s q where
  size := Nat.le_trans h.size g.size
  kind v there := (g.kind v (Nat.lt_of_lt_of_le there h.size)).trans (h.kind v there)
  shared v there own := by
    have same := h.shared v there own
    exact (g.shared v (Nat.lt_of_lt_of_le there h.size) (by rwa [same])).trans same

theorem of_push {value : Value} (values : t.values = s.values.push value) : Fixes s t := by
  refine of_forms (by simp [values]) fun v there => ?_
  rw [form, Session.value, values]
  exact (form_push s value v).trans (if_neg (Nat.ne_of_lt there))

theorem setValue {v : ValueId} {value : Value} (same : value.form = s.form v) : Fixes s (s.setValue v value) :=
  of_forms (by simp [Session.setValue]) fun w _ => congr_form_setValue id same w

theorem of_change {R : Realm} (c : Change R s t) : Fixes s t := by
  cases c with
  | beside b => exact of_values b.values
  | watch | newRecord | setRecord | noteRecord | newScope | setScope => exact of_values rfl
  | make | makeObject | makeConstant | makeAggregate | makeBound => exact of_push rfl
  | setForm v form kind own =>
    refine ⟨by simp [Session.setValue], fun w _ => congr_form_setValue Form.kind kind w, fun w _ shared => ?_⟩
    rw [form_setValue]
    split
    · next same =>
      rw [same.1, Form.isShared_of_kind kind own] at shared
      cases shared
    · rfl
  | keep => exact setValue rfl
  | makeInstance cls name description type form of there =>
    have made : Fixes s (s.withValue ⟨name, description, type, form, {}, []⟩) := of_push rfl
    exact made.trans (setValue ((form_push s _ cls).trans (if_neg (Nat.ne_of_lt there))).symm)

theorem spans : Spans Fixes where
  refl := refl
  trans := trans
  change := of_change
  lookup c := c.through refl trans of_change fun b => of_values b.values
  names _ _ := of_values rfl
  replace _ _ _ _ := setValue rfl
  wrap _ _ _ _ := setValue rfl
  ref _ _ _ := of_values rfl

theorem of_roams {L : Licence} {α : Type} {m : Analysis α} {Q : α → Prop} (h : Roams L .all m Q) (s : Session) :
    Fixes s (after m s) := spans.all (fun _ _ => spans.touch) (h s (Realm.closed_all s)).1

section Answers

variable (depth : Nat) (v : ValueId) (site : Site) (s : Session)

theorem answers : Roams.Answers ⟨fun _ => True, fun _ _ => True⟩ .all (Session.answerWithin depth) site :=
  Roams.answerWithin depth trivial

/-- No question changes what is fixed about a value, however far it leads. -/
theorem answerWithin (q : Question) : Fixes s (after (Session.answerWithin depth v q site) s) :=
  of_roams (answers depth site v q trivial (Realm.question_all q)) s

theorem nextOf : Fixes s (after (Session.nextOf (Session.answerWithin depth) v site) s) :=
  of_roams (Roams.nextOf (answers depth site) trivial) s

end Answers

end Fixes

end Session

end Typeflow
