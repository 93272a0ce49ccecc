import Mathlib.Data.Finset.Card
import Mathlib.Data.Finset.Range
import Typeflow.Proofs.Effect.Store

/-! How surely a module has a member that may be one of several. Alternatives may be nested in alternatives, and in
circles too; as many levels as there are values tell all there is to tell. -/
namespace Typeflow

/-- Sets that grow until nothing is added are complete after as many steps as they can have members. -/
theorem chain_settles {α : Type} [DecidableEq α] {F : Nat → Finset α} {size : Nat} (grows : ∀ i, F i ⊆ F (i + 1))
    (stays : ∀ i, F i = F (i + 1) → F (i + 1) = F (i + 2)) (bound : ∀ i, (F i).card ≤ size) :
    F size = F (size + 1) := by
  have added : ∀ i, F i = F (i + 1) ∨ i < (F (i + 1)).card := by
    intro i
    induction i with
    | zero =>
      refine or_iff_not_imp_left.2 fun other => ?_
      exact Nat.lt_of_le_of_lt (Nat.zero_le _) (Finset.card_lt_card ((grows 0).ssubset_of_ne other))
    | succ i ih =>
      refine or_iff_not_imp_left.2 fun other => ?_
      have before : i < (F (i + 1)).card := ih.resolve_left fun same => other (stays i same)
      exact Nat.lt_of_le_of_lt before (Finset.card_lt_card ((grows (i + 1)).ssubset_of_ne other))
  exact (added size).resolve_right (Nat.not_lt_of_le (bound (size + 1)))

namespace Session

namespace Presence

def isMet : Presence → Presence → Bool
  | .absent, _ => true
  | .speculative, found => found ≠ .absent
  | .resolved, found => found = .resolved

variable {floor : Presence} {p q : Presence}

private theorem isMet_absent (asks : floor ≠ .absent) : floor.isMet .absent = false := by
  cases floor with
  | absent => exact absurd rfl asks
  | _ => rfl

private theorem isMet_max : floor.isMet (p.max q) = (floor.isMet p || floor.isMet q) := by
  cases floor <;> cases p <;> cases q <;> rfl

/-- One of several is met if the surest of them is. -/
theorem isMet_foldl_max (asks : floor ≠ .absent) (found : List Presence) :
    floor.isMet (found.foldl max .absent) = found.any floor.isMet := by
  have from_ : ∀ first, floor.isMet (found.foldl max first) = (floor.isMet first || found.any floor.isMet) := by
    induction found with
    | nil => simp
    | cons p rest ih =>
      intro first
      rw [List.foldl_cons, ih, isMet_max, List.any_cons, Bool.or_assoc]
  rw [from_, isMet_absent asks, Bool.false_or]

private theorem ext_isMet (same : ∀ floor : Presence, floor ≠ .absent → floor.isMet p = floor.isMet q) : p = q := by
  have sure := same .resolved nofun
  have maybe := same .speculative nofun
  cases p <;> cases q <;> first | rfl | exact absurd sure (by decide) | exact absurd maybe (by decide)

end Presence

variable {s : Session} {name : String} {depth : Nat} {v : ValueId} {members : List ValueId} {floor : Presence}

private theorem presenceWithin_multiple (multiple : s.form v = .multiple members) :
    s.presenceWithin name (depth + 1) v = (members.map (s.presenceWithin name depth)).foldl Presence.max .absent := by
  rw [presenceWithin, show (s.value v).form = .multiple members from multiple]

/-- What has no alternatives is asked itself. -/
theorem presenceWithin_single (single : ∀ members, s.form v ≠ .multiple members) :
    s.presenceWithin name (depth + 1) v = s.presenceWithin name 1 v := by
  rw [presenceWithin, presenceWithin]
  cases form : (s.value v).form with
  | multiple members => exact absurd form (single members)
  | _ => rfl

private theorem presenceWithin_of_le (absent : s.values.size ≤ v.index) : s.presenceWithin name depth v = .absent := by
  cases depth with
  | zero => rfl
  | succ depth => rw [presenceWithin, show (s.value v).form = .reflected ⟨0⟩ from form_of_le absent]

section Sure

variable (s name floor)

/-- The values that at this depth are known to have the member as surely as this. -/
def sure (depth : Nat) : Finset Nat :=
  (Finset.range s.values.size).filter fun i => floor.isMet (s.presenceWithin name depth ⟨i⟩) = true

variable {s name floor}

private theorem mem_sure (asks : floor ≠ .absent) :
    v.index ∈ s.sure name floor depth ↔ floor.isMet (s.presenceWithin name depth v) = true := by
  rw [sure, Finset.mem_filter, Finset.mem_range, and_iff_right_iff_imp]
  intro met
  by_contra absent
  rw [presenceWithin_of_le (Nat.le_of_not_lt absent), Presence.isMet_absent asks] at met
  cases met

/-- A value with alternatives has the member when one of them is known to have it at the depth before. -/
theorem mem_sure_succ (asks : floor ≠ .absent) :
    v.index ∈ s.sure name floor (depth + 1) ↔
      (∃ members, s.form v = .multiple members ∧ ∃ w ∈ members, w.index ∈ s.sure name floor depth) ∨
      (∀ members, s.form v ≠ .multiple members) ∧ floor.isMet (s.presenceWithin name 1 v) = true := by
  rw [mem_sure asks]
  by_cases several : ∃ members, s.form v = .multiple members
  · obtain ⟨members, multiple⟩ := several
    rw [presenceWithin_multiple multiple, Presence.isMet_foldl_max asks, List.any_map, List.any_eq_true]
    constructor
    · rintro ⟨w, mem, met⟩
      exact .inl ⟨members, multiple, w, mem, (mem_sure asks).2 met⟩
    · rintro (⟨others, same, w, mem, met⟩ | ⟨single, -⟩)
      · cases multiple.symm.trans same
        exact ⟨w, mem, (mem_sure asks).1 met⟩
      · exact absurd multiple (single members)
  · have single : ∀ members, s.form v ≠ .multiple members := fun members multiple => several ⟨members, multiple⟩
    rw [presenceWithin_single single]
    constructor
    · exact fun met => .inr ⟨single, met⟩
    · rintro (⟨members, multiple, -⟩ | ⟨-, met⟩)
      · exact absurd multiple (single members)
      · exact met

/-- What is known at a depth decides what is known at the next one. -/
theorem sure_succ_subset (asks : floor ≠ .absent) {more : Nat} (sub : s.sure name floor depth ⊆ s.sure name floor more) :
    s.sure name floor (depth + 1) ⊆ s.sure name floor (more + 1) := by
  intro i mem
  have mem : (⟨i⟩ : ValueId).index ∈ s.sure name floor (depth + 1) := mem
  refine (mem_sure_succ (v := ⟨i⟩) asks).2 (((mem_sure_succ asks).1 mem).imp_left ?_)
  rintro ⟨members, multiple, w, mem, known⟩
  exact ⟨members, multiple, w, mem, sub known⟩

private theorem sure_grows (asks : floor ≠ .absent) (depth : Nat) : s.sure name floor depth ⊆ s.sure name floor (depth + 1) := by
  induction depth with
  | zero =>
    intro i mem
    have met := (mem_sure (v := ⟨i⟩) asks).1 mem
    rw [presenceWithin, Presence.isMet_absent asks] at met
    cases met
  | succ depth ih => exact sure_succ_subset asks ih

private theorem sure_settles (asks : floor ≠ .absent) :
    s.sure name floor s.values.size = s.sure name floor (s.values.size + 1) := by
  refine chain_settles (sure_grows asks) (fun depth same => ?_) fun depth => ?_
  · exact Finset.Subset.antisymm (sure_succ_subset asks (Finset.subset_of_eq same))
      (sure_succ_subset asks (Finset.subset_of_eq same.symm))
  · calc (s.sure name floor depth).card
        ≤ (Finset.range s.values.size).card := Finset.card_filter_le _ _
      _ = s.values.size := Finset.card_range _

end Sure

/-- As many levels as there are values tell all. -/
theorem presenceWithin_size (s : Session) (name : String) (v : ValueId) :
    s.presenceWithin name s.values.size v = s.presence v name := by
  refine Presence.ext_isMet fun floor asks => ?_
  rw [Bool.eq_iff_iff, ← mem_sure asks, sure_settles asks, mem_sure asks, presence, valueDepth]

/-- A module that may be one of several has a member as surely as the surest of them. -/
theorem presence_multiple (multiple : s.form v = .multiple members) (name : String) :
    s.presence v name = (members.map fun w => s.presence w name).foldl Presence.max .absent := by
  have alike : members.map (s.presenceWithin name s.values.size) = members.map fun w => s.presence w name :=
    List.map_congr_left fun w _ => presenceWithin_size s name w
  rw [presence, valueDepth, presenceWithin_multiple multiple, alike]

end Session

end Typeflow
