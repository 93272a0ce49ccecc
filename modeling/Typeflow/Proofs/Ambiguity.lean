import Mathlib.Data.Finset.Card
import Mathlib.Order.Interval.Finset.Nat
import Typeflow.Proofs.Realm.Change

/-! Ambiguous bindings of the host: which objects are their own alternatives, and how deep alternatives are
nested in alternatives where none is. -/
namespace Typeflow.Host

variable {h g : Host} {o p q : ObjectId} {object : Option ObjectId} {name : String} {names : List String}

/-- The second object is one of the alternatives of the first one. -/
def Alternative (host : Host) (o p : ObjectId) : Prop :=
  host.classify o = .multipleMembers ∧ some p ∈ host.alternatives o

/-- The binding is among its own alternatives, or among theirs, and so on. -/
def Circular (host : Host) (o : ObjectId) : Prop := Relation.TransGen host.Alternative o o

/-- Names go on from the object to its members. -/
def Contains (host : Host) (o : ObjectId) : Prop :=
  host.classify o = .module ∨ host.classify o = .type ∨ host.classify o = .memberContainer

/-- What is come across when names are followed from an object. A member takes a name away and an alternative
takes none. -/
inductive Meets (host : Host) : Option ObjectId → List String → ObjectId → Prop
  | here (o : ObjectId) (names : List String) : Meets host (some o) names o
  | alternative {o p q : ObjectId} {names : List String} (step : host.Alternative o p)
      (rest : Meets host (some p) names q) : Meets host (some o) names q
  | member {o q : ObjectId} {name : String} {names : List String} (step : host.Contains o)
      (rest : Meets host (host.member? o name) names q) : Meets host (some o) (name :: names) q

/-- No binding that is come across is among its own alternatives. Members may lead round in circles. -/
def Settles (host : Host) (object : Option ObjectId) (names : List String) : Prop :=
  ∀ q, host.Meets object names q → ¬ host.Circular q

namespace Settles

theorem alternative (settles : h.Settles (some o) names) (step : h.Alternative o p) :
    h.Settles (some p) names := fun q meets => settles q (.alternative step meets)

theorem member (settles : h.Settles (some o) (name :: names)) (step : h.Contains o) :
    h.Settles (h.member? o name) names := fun q meets => settles q (.member step meets)

theorem clear (settles : h.Settles (some o) names) : ¬ h.Circular o := settles o (.here o names)

end Settles

private theorem meets_of_alternatives (steps : Relation.ReflTransGen h.Alternative p o) (names : List String) :
    h.Meets (some p) names o := by
  induction steps using Relation.ReflTransGen.head_induction_on with
  | refl => exact .here o names
  | head step _ ih => exact .alternative step ih

/-- Where names do not settle, there is a step after which they still do not. -/
theorem next_of_not_settles (circles : ¬ h.Settles (some o) names) :
    (∃ p, h.Alternative o p ∧ ¬ h.Settles (some p) names) ∨
      ∃ name rest, names = name :: rest ∧ h.Contains o ∧ ¬ h.Settles (h.member? o name) rest := by
  simp only [Settles, not_forall, not_not] at circles ⊢
  obtain ⟨q, meets, circular⟩ := circles
  cases meets with
  | here =>
    obtain ⟨p, step, back⟩ := Relation.TransGen.head'_iff.1 circular
    exact .inl ⟨p, step, o, meets_of_alternatives back names, circular⟩
  | alternative step rest => exact .inl ⟨_, step, q, rest, circular⟩
  | member step rest => exact .inr ⟨_, _, rfl, step, q, rest, circular⟩

/-- Ambiguous bindings are objects that the host has. -/
theorem index_lt_of_several (several : h.classify o = .multipleMembers) : o.index < h.objects.size := by
  by_contra outside
  have empty : (h.object o).IsEmptyType := (Grows.of_eq rfl).made o (Nat.le_of_not_lt outside)
  rw [classify] at several
  cases hx : h.object o with
  | mk shape declared =>
    rw [hx] at empty several
    cases empty
    cases several

section Depth

open Classical

/-- How many ambiguous bindings there are among an object, its alternatives, theirs and so on. -/
noncomputable def ambiguity (host : Host) (o : ObjectId) : Nat :=
  ((Finset.range host.objects.size).filter fun i =>
    host.classify ⟨i⟩ = .multipleMembers ∧ Relation.ReflTransGen host.Alternative o ⟨i⟩).card

theorem ambiguity_le (h : Host) (o : ObjectId) : h.ambiguity o ≤ h.objects.size := by
  have bound := Finset.card_filter_le (Finset.range h.objects.size) fun i =>
    h.classify ⟨i⟩ = .multipleMembers ∧ Relation.ReflTransGen h.Alternative o ⟨i⟩
  rwa [Finset.card_range] at bound

/-- Each step to an alternative leaves a binding behind, unless it comes back. -/
theorem ambiguity_lt (step : h.Alternative o p) (clear : ¬ h.Circular o) : h.ambiguity p < h.ambiguity o := by
  refine Finset.card_lt_card ((Finset.ssubset_iff_of_subset ?_).2 ⟨o.index, ?_, ?_⟩)
  · intro i hi
    rw [Finset.mem_filter] at hi ⊢
    exact ⟨hi.1, hi.2.1, .head step hi.2.2⟩
  · rw [Finset.mem_filter, Finset.mem_range]
    exact ⟨index_lt_of_several step.1, step.1, .refl⟩
  · rw [Finset.mem_filter]
    intro back
    exact clear (.head' step back.2.2)

end Depth

/-- The objects of both hosts are of the same kinds and lead to the same objects. -/
structure Alike (h g : Host) : Prop where
  classify : ∀ o, g.classify o = h.classify o
  alternatives : ∀ o, g.alternatives o = h.alternatives o
  member? : ∀ o name, g.member? o name = h.member? o name

namespace Alike

/-- The types that the host makes lead nowhere. -/
theorem of_grows (grows : h.Grows g) : Alike h g where
  classify := grows.classify
  alternatives := grows.congr (f := fun x => Host.alternatives { objects := #[x] } ⟨0⟩) (by rintro _ _ ⟨⟩ ⟨⟩; rfl)
  member? o name :=
    grows.congr (f := fun x => Host.member? { objects := #[x] } ⟨0⟩ name) (by rintro _ _ ⟨⟩ ⟨⟩; rfl) o

end Alike

end Typeflow.Host
