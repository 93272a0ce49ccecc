import Typeflow.Proofs.Registry.Manage

/-! Resources. A path leads to a resource that is there. What resources declare changes only at the request of
callers, and a module that depends on a resource does so until the resource is removed. -/
namespace Typeflow.Session

variable {s t q : Session}

namespace Shelves

theorem refl (s : Session) : Shelves s s := .of_same rfl

theorem of_all {T : Session → Session → Prop} (h : ∀ s t, T s t → Shelves s t)
    (steps : Relation.ReflTransGen T s t) : Shelves s t := by
  induction steps with
  | refl => exact .refl s
  | tail _ step ih => exact ih.trans (h _ _ step)

theorem sustains : Sustains Shelves := Endures.sustains.mono (fun endures => endures.shelves) trans

theorem operation (o : Operation) (s : Session) : Shelves s (after o.run s) :=
  sustains.operation (fun name path _ => (Endures.withListed s name path).shelves) (fun _ _ => .of_same rfl)
    fun r f s _ => Roams.shelves_updateResource r f s

end Shelves

/-- Each path that leads to a resource leads to one that is there. -/
def Shelved (s : Session) : Prop := ∀ path r, s.resourcesByPath.find? path = some r → r.index < s.resources.size

namespace Shelved

theorem shelves (h : Shelved s) (more : Shelves s t) : Shelved t := by
  intro path r found
  rcases more.named path r found with before | there
  · exact Nat.lt_of_lt_of_le (h path r before) more.size
  · exact there

theorem create {options : Options} {host : Host} {hostRequests : List Request}
    (made : create options host hostRequests = .ok s) : Shelved s := by
  have empty : Shelved (blank options host hostRequests) := nofun
  rw [created_eq made]
  exact empty.shelves (Shelves.sustains.load _)

theorem afterAll (h : Shelved s) (ops : List Operation) : Shelved (afterAll ops s) := by
  induction ops generalizing s with
  | nil => exact h
  | cons o rest ih => exact ih (h.shelves (.operation o s))

/-- Paths lead to resources at every moment of a turn. -/
theorem in_turn (h : Shelved s) {o : Operation} {turn : Turn} (ran : .ran turn ∈ o.events s) {L : Licence}
    {R : Realm} (up : Touches L R turn.before t) : Shelved t := by
  have before := h.shelves (.of_all (fun _ _ => id) (Shelves.sustains.covers.since ran).1)
  exact before.shelves (.of_all (fun _ _ => Shelves.sustains.touch) up)

end Shelved

/-- Every resource declares what it declared and keeps the modules that depend on it. -/
def KeepsResources (s t : Session) : Prop := ∀ r, (s.resource r).Grows (t.resource r)

namespace KeepsResources

theorem refl (s : Session) : KeepsResources s s := fun _ => .refl _

theorem trans (h : KeepsResources s t) (g : KeepsResources t q) : KeepsResources s q :=
  fun r => (h r).trans (g r)

theorem of_eq (same : t.resources = s.resources) : KeepsResources s t := by
  intro r
  rw [resource, resource, same]
  exact .refl _

theorem of_all {T : Session → Session → Prop} (h : ∀ s t, T s t → KeepsResources s t)
    (steps : Relation.ReflTransGen T s t) : KeepsResources s t := by
  induction steps with
  | refl => exact .refl s
  | tail _ step ih => exact ih.trans (h _ _ step)

theorem sustains : Sustains KeepsResources := Endures.sustains.mono (fun endures => endures.resources) trans

theorem of_touches {L : Licence} {R : Realm} (touches : Touches L R s t) : KeepsResources s t :=
  of_all (fun _ _ => sustains.touch) touches

end KeepsResources

/-- The modules that depend on a resource still do. -/
def KeepsDependents (r : ResourceId) (s t : Session) : Prop :=
  (s.resource r).dependents ⊆ (t.resource r).dependents

namespace KeepsDependents

variable {r : ResourceId}

theorem of_kept (h : KeepsResources s t) : KeepsDependents r s t := (h r).dependents

theorem trans (h : KeepsDependents r s t) (g : KeepsDependents r t q) : KeepsDependents r s q :=
  List.Subset.trans h g

theorem sustains : Sustains (KeepsDependents r) := KeepsResources.sustains.mono of_kept trans

/-- What an operation does to resources leaves the modules that depend on another one alone. -/
theorem of_edit {o : Operation} (other : o ≠ .removeResource (some r)) {edited : ResourceId}
    {f : Resource → Resource} (edit : o.edit? = some (edited, f)) (s : Session) :
    KeepsDependents r s (after (updateResource edited f) s) := by
  unfold KeepsDependents
  rw [resource_updateResource]
  split
  · next same =>
    cases o with
    | setResourceObjects named objects =>
      cases edit
      exact List.Subset.refl _
    | removeResource named =>
      cases named with
      | none => cases edit
      | some named =>
        cases edit
        rw [same.1] at other
        exact absurd rfl other
    | _ => cases edit
  · exact List.Subset.refl _

/-- A module depends on a resource until the resource is removed. -/
theorem operation {o : Operation} (other : o ≠ .removeResource (some r)) (s : Session) :
    KeepsDependents r s (after o.run s) :=
  sustains.operation (fun name path _ => of_kept (Endures.withListed s name path).resources)
    (fun _ _ => of_kept (.of_eq rfl)) fun _ _ s edit => of_edit other edit s

theorem afterAll {ops : List Operation} (others : .removeResource (some r) ∉ ops) (s : Session) :
    KeepsDependents r s (afterAll ops s) := by
  induction ops generalizing s with
  | nil => exact List.Subset.refl _
  | cons o rest ih =>
    rw [List.mem_cons, not_or] at others
    exact (operation (Ne.symm others.1) s).trans (ih others.2 _)

end KeepsDependents

end Typeflow.Session
