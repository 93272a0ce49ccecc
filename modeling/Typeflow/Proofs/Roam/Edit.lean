import Typeflow.Proofs.Effect.Retire
import Typeflow.Proofs.Roam.Lifecycle

/-! What callers do to programs between evaluations: trees are replaced, and units are retired and let
go. All else about it consists of small changes. -/
namespace Typeflow.Session

instance (T : Session → Session → Prop) : Realm.all.Guards T where
  closed _ _ := Realm.closed_all _

private theorem setValue_self (s : Session) (v : ValueId) : s.setValue v (s.value v) = s := by
  have same : s.values.setIfInBounds v.index (s.value v) = s.values := by
    refine Array.ext (by simp) fun i _ hi => ?_
    rw [Array.getElem_setIfInBounds]
    split
    · next eq =>
      subst eq
      simp [value, hi]
    · rfl
  rw [setValue, same]

private theorem Form.mapCode_of_none {form : Form} (h : form.code? = none) (change : Code → Code) :
    form.mapCode change = form := by
  cases form <;> first | rfl | cases h

namespace Fine

open Within

variable {R : Realm}

theorem newUnit (entry : Option EntryId) (scope : ScopeId) (body : Body) :
    Fine R (Session.newUnit entry scope body) fun _ => True := by
  refine of_beside fun s => ?_
  rw [after_of_ok (newUnit_run entry scope body s)]
  exact beside_withUnit s entry scope body

theorem newObserver : Fine R Session.newObserver fun _ => True :=
  .bind (newScope nofun rfl rfl) fun _ _ =>
    .bind (of_beside fun _ => .of_same rfl rfl rfl rfl rfl) fun _ _ => newUnit _ _ _

/-- A value without code is not changed by being cut off. -/
theorem detach (v : ValueId) : Fine R (Session.detach v) fun _ => True := by
  refine of_change fun s hs => ?_
  have run : after (Session.detach v) s = s.withCode v cut := rfl
  rw [run, withCode]
  cases hc : (s.form v).code? with
  | some code =>
    refine .setForm v _ (kind_mapCode _ _) (isShared_mapCode hc _) (kind_of_code? hc)
      (fun name x hx => .inl ((Form.record?_mapCode _ _ _).symm.trans hx)) (instanceOf?_mapCode _ _) fun hv => ?_
    exact (Realm.form_mapCode _ _).2 (hs.form v hv)
  | none =>
    rw [Form.mapCode_of_none hc]
    refine .beside ?_
    rw [show ({ s.value v with form := s.form v } : Value) = s.value v from rfl, setValue_self]
    exact .of_same rfl rfl rfl rfl rfl

theorem clearNodeValues (c : ScopeId) : Fine R (Session.clearNodeValues c) fun _ => True :=
  of_change fun s hs => .setScope c (s.scope c).names [] (fun _ _ hx => hx) (hs.names c) nofun

end Fine

/-- Small changes are of this kind, and so is it when units are retired and let go. -/
structure Edits (T : Session → Session → Prop) : Prop where
  change : ∀ {s t}, Change .all s t → T s t
  retire : ∀ u s, T s (after (retire u) s)
  release : ∀ s, T s (after releaseRetired s)

namespace Edits

open Within

variable {T : Session → Session → Prop} {α : Type} {m : Analysis α} {Q : α → Prop}

theorem fine (h : Edits T) (hm : Fine .all m Q) : Within .all T m Q := fun s hs =>
  ⟨Relation.ReflTransGen.mono (fun _ _ => h.change) _ _ (hm s hs).1, (hm s hs).2⟩

theorem releaseRetired (h : Edits T) : Within .all T (do let _ ← Session.releaseRetired) fun _ => True :=
  .bind (of_change fun s _ => h.release s) fun _ _ => .pure trivial

theorem retireEntry (h : Edits T) (e : EntryId) (detaching : Bool) :
    Within .all T (Session.retireEntry e detaching) fun _ => True := by
  refine .read fun s _ => .bind (h.fine (.updateEntry e fun _ => rfl)) fun _ _ =>
    .bind (.forM fun u _ => of_change fun s _ => h.retire u s) fun _ _ => .ite ?_ h.releaseRetired
  exact .bind (.forM fun v _ => h.fine (.detach v)) fun _ _ => h.releaseRetired

theorem replaceTree (h : Edits T) (e : EntryId) (tree : Option Tree) :
    Within .all T (Session.replaceTree e tree) fun _ => True := by
  have numbered : Within .all T (tree.mapM numberTree) fun _ => True := by
    cases tree with
    | none => exact .pure trivial
    | some tree => exact h.fine (.of_beside fun _ => .of_same rfl rfl rfl rfl rfl)
  refine .bind numbered fun tree _ => .bind (h.fine (.updateEntry e fun _ => rfl)) fun _ _ =>
    .bind (h.retireEntry _ _) fun _ _ => .read fun s _ =>
      .bind (h.fine (.clearNodeValues _)) fun _ _ => ?_
  cases tree with
  | none => exact .pure trivial
  | some tree =>
    exact .bind (h.fine (.newUnit _ _ _)) fun _ _ => h.fine (.updateEntry e fun _ => rfl)

end Edits

end Typeflow.Session
