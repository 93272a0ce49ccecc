import Mathlib.Data.Finset.Card
import Mathlib.Data.Finset.Lattice.Fold
import Mathlib.Data.Finset.Option
import Mathlib.Data.List.ReduceOption
import Typeflow.ValueSet

/-! Sets of values are the finite sets with a greatest element, and every way to make one computes
in that lattice: a union is the join of its operands, taken to `⊤` where it outgrows its cap. -/
namespace Typeflow.ValueSet

/-- The finite set that a set of values stands for; `⊤` stands for any value. -/
def members : ValueSet → WithTop (Finset ValueId)
  | top => ⊤
  | of values => (values.toList.toFinset : Finset ValueId)

/-- A finite set with more members than its cap becomes `⊤`; a cap of zero is none. -/
def capAt (cap : Nat) : WithTop (Finset ValueId) → WithTop (Finset ValueId)
  | ⊤ => ⊤
  | (s : Finset ValueId) => if cap ≠ 0 ∧ cap < s.card then ⊤ else s

@[simp] theorem members_top : members top = ⊤ := rfl

@[simp] theorem members_empty : members empty = ⊥ := rfl

theorem members_of (values : ValueList) :
    members (of values) = (values.toList.toFinset : Finset ValueId) := rfl

theorem members_eq_top {a : ValueSet} : a.members = ⊤ ↔ a = top := by
  cases a with
  | top => simp
  | of values => simp [members_of]

/-- Sets are equal when they stand for the same members. -/
theorem eq_iff_members {a b : ValueSet} : a = b ↔ a.members = b.members := by
  constructor
  · rintro rfl
    rfl
  · intro h
    cases a with
    | top => exact (members_eq_top.1 h.symm).symm
    | of x =>
      cases b with
      | top => exact members_eq_top.1 h
      | of y =>
        have same : x.toList.toFinset = y.toList.toFinset := WithTop.coe_injective h
        have : x = y := ValueList.ext_mem fun v => by
          simpa using congrArg (v ∈ ·) same
        rw [this]

@[simp] theorem capAt_top (cap : Nat) : capAt cap ⊤ = ⊤ := rfl

theorem capAt_coe (cap : Nat) (s : Finset ValueId) :
    capAt cap s = if cap ≠ 0 ∧ cap < s.card then ⊤ else (s : WithTop (Finset ValueId)) := rfl

@[simp] theorem capAt_bot (cap : Nat) : capAt cap ⊥ = ⊥ := by
  have : ((∅ : Finset ValueId) : WithTop (Finset ValueId)) = ⊥ := rfl
  rw [← this, capAt_coe]
  simp

/-- What outgrows its cap does so in every union. -/
theorem capAt_sup_capAt (cap : Nat) (s t : WithTop (Finset ValueId)) :
    capAt cap (capAt cap s ⊔ t) = capAt cap (s ⊔ t) := by
  cases s with
  | top => simp
  | coe s =>
    cases t with
    | top => simp
    | coe t =>
      by_cases h : cap ≠ 0 ∧ cap < s.card
      · have larger : cap < (s ∪ t).card :=
          lt_of_lt_of_le h.2 (Finset.card_le_card Finset.subset_union_left)
        have : (s : WithTop (Finset ValueId)) ⊔ t = (s ∪ t : Finset ValueId) := rfl
        rw [this, capAt_coe, if_pos h, capAt_coe, if_pos ⟨h.1, larger⟩]
        simp
      · rw [capAt_coe, if_neg h]

private theorem capAt_sup_capAt_right (cap : Nat) (s t : WithTop (Finset ValueId)) :
    capAt cap (s ⊔ capAt cap t) = capAt cap (s ⊔ t) := by
  rw [sup_comm, capAt_sup_capAt, sup_comm]

private theorem members_capped (cap : Nat) (a : ValueSet) :
    (capped cap a).members = capAt cap a.members := by
  cases a with
  | top => rfl
  | of values =>
    have size : values.toList.toFinset.card = values.toList.length :=
      List.toFinset_card_of_nodup values.nodup
    rw [members_of, capAt_coe, size]
    by_cases h : cap ≠ 0 ∧ cap < values.toList.length
    · simp [capped, h]
    · rw [if_neg h]
      simp only [capped, Bool.and_eq_true, decide_eq_true_eq, if_neg h]
      rfl

theorem members_union (a b : ValueSet) (cap : Nat) :
    (a.union b cap).members = capAt cap (a.members ⊔ b.members) := by
  cases a with
  | top => rfl
  | of x =>
    cases b with
    | top => rfl
    | of y =>
      have joined : (of (x.union y)).members = (of x).members ⊔ (of y).members := by
        have : (x.union y).toList.toFinset = x.toList.toFinset ∪ y.toList.toFinset := by
          ext v
          simp
        rw [members_of, this]
        rfl
      rw [← joined, ← members_capped]
      rfl

/-- Once the union is `⊤` it stays so, which is why the rest need not be looked at. -/
theorem members_unionFrom (acc : ValueSet) (cap : Nat) (sets : List ValueSet)
    (fits : capAt cap acc.members = acc.members) :
    (unionFrom acc cap sets).members = capAt cap (acc.members ⊔ sets.toFinset.sup members) := by
  induction sets generalizing acc with
  | nil => simp [unionFrom, fits]
  | cons s rest ih =>
    have next := members_union acc s cap
    have again : capAt cap (acc.union s cap).members = (acc.union s cap).members := by
      have := capAt_sup_capAt cap (acc.members ⊔ s.members) ⊥
      rw [next]
      simpa using this
    have all : capAt cap (acc.members ⊔ (s :: rest).toFinset.sup members) =
        capAt cap ((acc.union s cap).members ⊔ rest.toFinset.sup members) := by
      rw [next, capAt_sup_capAt, List.toFinset_cons, Finset.sup_insert, sup_assoc]
    rw [all, unionFrom]
    cases h : acc.union s cap with
    | top => simp
    | of values =>
      rw [h] at again
      exact ih (of values) again

theorem members_unionAll (sets : List ValueSet) (cap : Nat) :
    (unionAll sets cap).members = capAt cap (sets.toFinset.sup members) := by
  have := members_unionFrom empty cap sets (by simp)
  simpa [unionAll] using this

theorem unionAll_congr {sets sets' : List ValueSet} (cap : Nat)
    (same : ∀ s, s ∈ sets ↔ s ∈ sets') : unionAll sets cap = unionAll sets' cap := by
  have : sets.toFinset = sets'.toFinset := by
    ext s
    simpa using same s
  rw [eq_iff_members, members_unionAll, members_unionAll, this]

private theorem unionAll_cons (s : ValueSet) (sets : List ValueSet) (cap : Nat) :
    unionAll (s :: sets) cap = s.union (unionAll sets cap) cap := by
  rw [eq_iff_members, members_union, members_unionAll, members_unionAll, List.toFinset_cons,
    Finset.sup_insert, capAt_sup_capAt_right]

private theorem unionAll_append (sets sets' : List ValueSet) (cap : Nat) :
    unionAll (sets ++ sets') cap = (unionAll sets cap).union (unionAll sets' cap) cap := by
  rw [eq_iff_members, members_union]
  simp only [members_unionAll, List.toFinset_append, Finset.sup_union, capAt_sup_capAt,
    capAt_sup_capAt_right]

theorem unionAll_flatten (groups : List (List ValueSet)) (cap : Nat) :
    unionAll (groups.map (unionAll · cap)) cap = unionAll groups.flatten cap := by
  induction groups with
  | nil => rfl
  | cons group groups ih =>
    rw [List.map_cons, unionAll_cons, ih, List.flatten_cons, unionAll_append]

private theorem contains_iff {a : ValueSet} {v : Option ValueId} :
    a.contains v = true ↔ ∃ x s, v = some x ∧ a.members = (s : Finset ValueId) ∧ x ∈ s := by
  cases v with
  | none => simp [contains]
  | some x =>
    cases a with
    | top => simp [contains, items]
    | of values =>
      have listed : (of values).contains (some x) = true ↔ x ∈ values.toList := decide_eq_true_iff
      rw [listed]
      simp [members_of]

/-- The ways to make a set of values; the parts of a union are made in any of these ways too. -/
inductive Construction where
  | empty
  | top
  | single (value : Option ValueId)
  | ofList (values : List (Option ValueId))
  | union (a b : Construction) (cap : Nat)
  | add (a : Construction) (value : Option ValueId) (cap : Nat)
  | unionAll (parts : List Construction) (cap : Nat)

mutual

def Construction.build : Construction → ValueSet
  | .empty => ValueSet.empty
  | .top => ValueSet.top
  | .single value => ValueSet.single value
  | .ofList values => ValueSet.ofList values
  | .union a b cap => a.build.union b.build cap
  | .add a value cap => a.build.add value cap
  | .unionAll parts cap => ValueSet.unionAll (buildAll parts) cap

def Construction.buildAll : List Construction → List ValueSet
  | [] => []
  | c :: rest => c.build :: buildAll rest

end

mutual

/-- What a construction stands for: null values are left out, and every cap applies to the union as
a whole. -/
def Construction.meaning : Construction → WithTop (Finset ValueId)
  | .empty => (∅ : Finset ValueId)
  | .top => ⊤
  | .single value => value.toFinset
  | .ofList values => (values.reduceOption.toFinset : Finset ValueId)
  | .union a b cap => capAt cap (a.meaning ⊔ b.meaning)
  | .add a value cap => capAt cap (a.meaning ⊔ (value.toFinset : Finset ValueId))
  | .unionAll parts cap => capAt cap (meaningAll parts)

def Construction.meaningAll : List Construction → WithTop (Finset ValueId)
  | [] => (∅ : Finset ValueId)
  | c :: rest => c.meaning ⊔ meaningAll rest

end

private theorem members_single (value : Option ValueId) :
    (single value).members = (value.toFinset : Finset ValueId) := by
  cases value <;> rfl

theorem members_ofList (values : List (Option ValueId)) :
    (ofList values).members = (values.reduceOption.toFinset : Finset ValueId) := by
  have : (ValueList.ofList values.reduceOption).toList.toFinset = values.reduceOption.toFinset := by
    ext v
    simp
  rw [← this]
  rfl

mutual

private theorem Construction.members_build : ∀ c : Construction, c.build.members = c.meaning
  | .empty => rfl
  | .top => rfl
  | .single value => members_single value
  | .ofList values => members_ofList values
  | .union a b cap => by
    rw [build, meaning, members_union, a.members_build, b.members_build]
  | .add a value cap => by
    rw [build, meaning, ValueSet.add, members_union, a.members_build, members_single]
  | .unionAll parts cap => by
    rw [build, meaning, members_unionAll, members_buildAll parts]

private theorem Construction.members_buildAll : ∀ parts : List Construction,
    (buildAll parts).toFinset.sup members = meaningAll parts
  | [] => rfl
  | c :: rest => by
    rw [buildAll, meaningAll, List.toFinset_cons, Finset.sup_insert, c.members_build,
      members_buildAll rest]

end

theorem items_increasing (a : ValueSet) : a.items.Pairwise (·.index < ·.index) := by
  cases a with
  | top => exact .nil
  | of values => exact values.ordered

/-- Every construction computes in the lattice of the finite sets with a greatest element, and what
it makes can be told apart by its members alone. -/
theorem refines_finite_sets :
    (∀ c : Construction, c.build.members = c.meaning) ∧
    (∀ a : ValueSet, a.items.Pairwise (·.index < ·.index)) ∧
    (top.items = [] ∧ top ≠ empty) ∧
    (∀ (a b : ValueSet) (cap : Nat),
      (a.union b cap).members = capAt cap (a.members ⊔ b.members)) ∧
    (∀ (sets : List ValueSet) (cap : Nat),
      (unionAll sets cap).members = capAt cap (sets.toFinset.sup members)) ∧
    (∀ (sets sets' : List ValueSet) (cap : Nat), (∀ s, s ∈ sets ↔ s ∈ sets') →
      unionAll sets cap = unionAll sets' cap) ∧
    (∀ (groups : List (List ValueSet)) (cap : Nat),
      unionAll (groups.map (unionAll · cap)) cap = unionAll groups.flatten cap) ∧
    (∀ (a : ValueSet) (v : Option ValueId), a.contains v = true ↔
      ∃ x s, v = some x ∧ a.members = (s : Finset ValueId) ∧ x ∈ s) ∧
    (∀ a b : ValueSet, a = b ↔ a.members = b.members) := by
  refine ⟨Construction.members_build, items_increasing, ⟨rfl, nofun⟩, members_union,
    members_unionAll, ?_, unionAll_flatten, fun _ _ => contains_iff, fun _ _ => eq_iff_members⟩
  intro sets sets' cap same
  exact unionAll_congr cap same

end Typeflow.ValueSet
