import Typeflow.Proofs.Action

/-! What the tables of a session hold after one of their cells changes. -/
namespace Typeflow

variable {α : Type}

theorem getD_push (xs : Array α) (a d : α) (i : Nat) :
    (xs.push a).getD i d = if i = xs.size then a else xs.getD i d := by
  by_cases h : i = xs.size <;> simp [Array.getElem?_push, h]

theorem getD_setIfInBounds (xs : Array α) (a d : α) (i j : Nat) :
    (xs.setIfInBounds i a).getD j d = if j = i ∧ i < xs.size then a else xs.getD j d := by
  by_cases h : j = i
  · subst h
    by_cases hs : j < xs.size <;> simp [hs]
  · simp [h, Array.getElem?_setIfInBounds_ne (Ne.symm h)]

theorem getD_modify (xs : Array α) (f : α → α) (d : α) (i j : Nat) :
    (xs.modify i f).getD j d = if j = i ∧ i < xs.size then f (xs.getD j d) else xs.getD j d := by
  by_cases h : j = i
  · subst h
    by_cases hs : j < xs.size <;> simp [Array.getElem_modify, hs]
  · simp [h, Array.getElem?_modify, Ne.symm h]

theorem ValueId.index_inj {v w : ValueId} : v.index = w.index ↔ v = w := by
  cases v; cases w; simp

theorem VarId.index_inj {v w : VarId} : v.index = w.index ↔ v = w := by
  cases v; cases w; simp

theorem ScopeId.index_inj {v w : ScopeId} : v.index = w.index ↔ v = w := by
  cases v; cases w; simp

theorem UnitId.index_inj {v w : UnitId} : v.index = w.index ↔ v = w := by
  cases v; cases w; simp

theorem EntryId.index_inj {v w : EntryId} : v.index = w.index ↔ v = w := by
  cases v; cases w; simp

theorem ResourceId.index_inj {v w : ResourceId} : v.index = w.index ↔ v = w := by
  cases v; cases w; simp

namespace Session

theorem value_setValue (s : Session) (v w : ValueId) (value : Value) :
    (s.setValue v value).value w = if w = v ∧ v.index < s.values.size then value else s.value w := by
  simp only [Session.value, setValue, getD_setIfInBounds, ValueId.index_inj]

theorem form_setValue (s : Session) (v w : ValueId) (value : Value) :
    (s.setValue v value).form w =
      if w = v ∧ v.index < s.values.size then value.form else s.form w := by
  simp only [Session.form, value_setValue]
  split <;> rfl

/-- What the new form has in common with the one it replaces stays so of every form. -/
theorem congr_form_setValue {α : Type} {s : Session} {v : ValueId} {value : Value} (f : Form → α)
    (same : f value.form = f (s.form v)) (w : ValueId) : f ((s.setValue v value).form w) = f (s.form w) := by
  rw [form_setValue]
  split
  · next own => rw [own.1, same]
  · rfl

theorem value_of_le {s : Session} {v : ValueId} (h : s.values.size ≤ v.index) : s.value v = default := by
  simp [Session.value, Array.getElem?_eq_none h]

theorem form_of_le {s : Session} {v : ValueId} (h : s.values.size ≤ v.index) :
    s.form v = (default : Value).form := by
  rw [Session.form, value_of_le h]

/-- A value that has other than the default form has been made. -/
theorem index_lt_of_form {s : Session} {v : ValueId} (h : s.form v ≠ (default : Value).form) :
    v.index < s.values.size :=
  Nat.lt_of_not_le fun hv => h (form_of_le hv)

theorem scope_of_le {s : Session} {c : ScopeId} (h : s.scopes.size ≤ c.index) : s.scope c = default := by
  simp [Session.scope, Array.getElem?_eq_none h]

private theorem isAlive_of_le {s : Session} {u : UnitId} (h : s.units.size ≤ u.index) :
    s.isAlive u = false := by
  simp [Session.isAlive, Session.unit, Array.getElem?_eq_none h]

theorem index_lt_of_isAlive {s : Session} {u : UnitId} (h : s.isAlive u = true) :
    u.index < s.units.size :=
  Nat.lt_of_not_le fun hu => by rw [isAlive_of_le hu] at h; cases h

theorem entry_of_le {s : Session} {e : EntryId} (h : s.entries.size ≤ e.index) :
    s.entry e = default := by
  simp [Session.entry, Array.getElem?_eq_none h]

theorem resource_updateResource (r : ResourceId) (f : Resource → Resource) (s : Session) (q : ResourceId) :
    (after (updateResource r f) s).resource q =
      if q = r ∧ r.index < s.resources.size then f (s.resource q) else s.resource q := by
  have look : (after (updateResource r f) s).resource q = _ :=
    getD_modify s.resources f default r.index q.index
  simp only [look, ResourceId.index_inj]
  rfl

end Session

end Typeflow
