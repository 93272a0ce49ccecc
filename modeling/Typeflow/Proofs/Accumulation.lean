import Typeflow.Proofs.Growth

/-! What gathers in a name. Sets of values are added to it one after the other, each as it comes or joined
with others before, and the cap is checked on what has gathered so far. A set that outgrows its cap on the
way outgrows it in the end, so the order of the sets, their repetitions and their groups leave no trace. -/
namespace Typeflow

namespace ValueSet

@[simp] theorem capAt_zero (s : WithTop (Finset ValueId)) : capAt 0 s = s := by
  cases s with
  | top => rfl
  | coe s => rw [capAt_coe, if_neg fun h => h.1 rfl]

theorem members_join (a b : ValueSet) : (a.join b).members = a.members ⊔ b.members := by
  rw [join, members_union, capAt_zero]

def listed (sets : List ValueSet) : Finset ValueId := (sets.flatMap items).toFinset

/-- The union of sets is what they list, unless one of them stands for any value. -/
theorem sup_members (sets : List ValueSet) :
    sets.toFinset.sup members = if top ∈ sets then ⊤ else (listed sets : WithTop (Finset ValueId)) := by
  induction sets with
  | nil => rfl
  | cons s rest ih =>
    rw [List.toFinset_cons, Finset.sup_insert, ih]
    cases s with
    | top => simp
    | of values =>
      have more : (listed (of values :: rest) : WithTop (Finset ValueId)) =
          (of values).members ⊔ (listed rest : Finset ValueId) := by
        rw [listed, List.flatMap_cons, List.toFinset_append]
        rfl
      have same : top ∈ of values :: rest ↔ top ∈ rest := by simp
      simp only [same, more]
      split
      · exact sup_top_eq _
      · rfl

end ValueSet

/-- What is added at once: a set as it comes, or sets that are joined first, without a cap. -/
inductive Batch where
  | one (values : ValueSet)
  | join (a b : Batch)

namespace Batch

def values : Batch → ValueSet
  | one values => values
  | join a b => a.values.join b.values

def parts : Batch → List ValueSet
  | one values => [values]
  | join a b => a.parts ++ b.parts

private theorem members_values (b : Batch) : b.values.members = b.parts.toFinset.sup ValueSet.members := by
  induction b with
  | one => simp [values, parts]
  | join a b iha ihb =>
    rw [values, parts, ValueSet.members_join, List.toFinset_append, Finset.sup_union, iha, ihb]

end Batch

namespace Session

/-- A name takes values in at its cap, and says whether this has changed it. -/
theorem addTypes_run {x : VarId} {s : Session} (there : x.index < s.records.size) (values : ValueSet) :
    ∃ changed t, addTypes x values s = .ok changed t ∧
      t.types x = (s.types x).union values (s.var x).cap ∧ (changed = true ↔ t.types x ≠ s.types x) ∧
      (t.var x).cap = (s.var x).cap ∧ t.records.size = s.records.size := by
  rcases addTypes_cases x values s with ⟨none, kept⟩ | ⟨record, some, told⟩
  · exact ⟨false, s, kept, (Variable.grow?_eq_none.1 none).symm, by simp, rfl, rfl⟩
  · have grows := Variable.eq_of_grow? some
    have changes := (Variable.types_of_grow? some).2
    let grown : Session := { s with records := s.records.setIfInBounds x.index record }
    have size : grown.records.size = s.records.size := Array.size_setIfInBounds
    have now : (after (notifyReaders x) grown).var x = record.sweep grown.isAlive := by
      rw [var_notifyReaders, if_pos ⟨rfl, by rwa [size]⟩, var_setIfInBounds, if_pos ⟨rfl, there⟩]
    have types : (after (notifyReaders x) grown).types x = record.types := by
      rw [Session.types, now]
      rfl
    refine ⟨true, _, told, ?_, ?_, ?_, ?_⟩
    · rw [types, grows]
      rfl
    · rw [types]
      exact ⟨fun _ => changes, fun _ => rfl⟩
    · rw [now, grows]
      rfl
    · rw [size_notifyReaders, size]

/-- Adds batches to a name one after the other; the answers say which of them changed it. -/
def addBatches (x : VarId) (batches : List Batch) : Analysis (List Bool) :=
  batches.mapM fun b => addTypes x b.values

/-- A name whose types are some values at its cap has all that is added to it, at its cap, in the end. -/
theorem addBatches_run {x : VarId} {s : Session} (there : x.index < s.records.size)
    {gathered : WithTop (Finset ValueId)} (before : (s.types x).members = ValueSet.capAt (s.var x).cap gathered)
    (batches : List Batch) :
    ∃ answers t, addBatches x batches s = .ok answers t ∧
      (t.types x).members = ValueSet.capAt (s.var x).cap
        (gathered ⊔ (batches.flatMap Batch.parts).toFinset.sup ValueSet.members) := by
  induction batches generalizing s gathered with
  | nil => exact ⟨[], s, rfl, by simpa using before⟩
  | cons b rest ih =>
    obtain ⟨changed, r, added, types, -, cap, size⟩ := addTypes_run there b.values
    have now : (r.types x).members = ValueSet.capAt (r.var x).cap (gathered ⊔ b.values.members) := by
      rw [types, ValueSet.members_union, before, ValueSet.capAt_sup_capAt, cap]
    obtain ⟨answers, t, run, ends⟩ := ih (by rwa [size]) now
    refine ⟨changed :: answers, t, ?_, ?_⟩
    · have others : rest.mapM (fun b => addTypes x b.values) r = .ok answers t := run
      rw [addBatches, List.mapM_cons, bind_of_ok added, bind_of_ok others]
      rfl
    · rw [ends, cap, b.members_values, List.flatMap_cons, List.toFinset_append, Finset.sup_union, sup_assoc]

/-- Every addition to a name is told apart by its answer and loses nothing, and a name that stands for any
value takes nothing more in. A new name has in the end what the sets have together, whichever way they
are brought to it: any value if one of them stands for that or there are more values than the cap. -/
theorem accumulation_is_order_independent :
    (∀ (s : Session) (x : VarId) (values : ValueSet), x.index < s.records.size →
      ∃ changed t, addTypes x values s = .ok changed t ∧
        (changed = true ↔ t.types x ≠ s.types x) ∧ (s.types x).members ≤ (t.types x).members ∧
        (s.types x = .top → changed = false ∧ t.types x = .top)) ∧
    (∀ (s : Session) (cap : Nat) (sets : List ValueSet) (batches : List Batch),
      (∀ v, v ∈ batches.flatMap Batch.parts ↔ v ∈ sets) →
      ∃ x fresh answers t, newVariable cap s = .ok x fresh ∧ addBatches x batches fresh = .ok answers t ∧
        (t.types x = .top ↔ .top ∈ sets ∨ cap ≠ 0 ∧ cap < (ValueSet.listed sets).card) ∧
        (t.types x ≠ .top → (t.types x).items.toFinset = ValueSet.listed sets)) := by
  constructor
  · intro s x values there
    obtain ⟨changed, t, run, types, changes, -, -⟩ := addTypes_run there values
    have grows : (s.types x).members ≤ (t.types x).members := by
      rw [types]
      exact ValueSet.members_le_union _ _ _
    refine ⟨changed, t, run, changes, grows, fun full => ?_⟩
    have still : t.types x = .top := by
      rw [full] at grows
      exact ValueSet.members_eq_top.1 (top_le_iff.1 grows)
    refine ⟨Bool.eq_false_iff.2 fun yes => changes.1 yes ?_, still⟩
    rw [still, full]
  · intro s cap sets batches same
    have made : newVariable cap s =
        .ok ⟨s.records.size⟩ { s with records := s.records.push { cap } } := rfl
    let fresh : Session := { s with records := s.records.push { cap } }
    have record : fresh.var ⟨s.records.size⟩ = { cap } := by simp [fresh, Session.var]
    have blank : (fresh.types ⟨s.records.size⟩).members =
        ValueSet.capAt (fresh.var ⟨s.records.size⟩).cap ⊥ := by
      rw [Session.types, record, ValueSet.capAt_bot]
      rfl
    obtain ⟨answers, t, run, ends⟩ := addBatches_run (by simp [fresh]) blank batches
    have alike : (batches.flatMap Batch.parts).toFinset = sets.toFinset := by
      ext v
      simpa using same v
    rw [alike, record, bot_sup_eq, ValueSet.sup_members] at ends
    refine ⟨_, fresh, answers, t, made, run, ?_, fun some => ?_⟩
    · rw [← ValueSet.members_eq_top, ends]
      by_cases full : .top ∈ sets
      · simp [full]
      · simp [full, ValueSet.capAt_coe]
    · generalize t.types _ = held at ends some ⊢
      cases held with
      | top => exact absurd rfl some
      | of values =>
        by_cases full : .top ∈ sets
        · simp [full, ValueSet.members_of] at ends
        · rw [if_neg full, ValueSet.capAt_coe] at ends
          split at ends
          · cases ends
          · exact WithTop.coe_injective ends

/-- Two sets of one value each, the second of which comes first, again with the other and once more: a cap
of one is outgrown, and a cap of two is not. -/
theorem accumulation_is_order_independent_at_caps :
    let one : ValueSet := .single (some ⟨0⟩)
    let other : ValueSet := .single (some ⟨1⟩)
    let batches : List Batch := [.one other, .join (.one one) (.one other), .one other]
    (∃ x fresh answers t, newVariable 1 default = .ok x fresh ∧ addBatches x batches fresh = .ok answers t ∧
      t.types x = .top) ∧
    ∃ x fresh answers t, newVariable 2 default = .ok x fresh ∧ addBatches x batches fresh = .ok answers t ∧
      (t.types x).items.toFinset = {⟨0⟩, ⟨1⟩} := by
  intro one other batches
  have parts : ∀ v, v ∈ batches.flatMap Batch.parts ↔ v ∈ [one, other] := by
    intro v
    simpa [batches, Batch.parts, or_comm] using Or.inr
  have both : ValueSet.listed [one, other] = {⟨0⟩, ⟨1⟩} := by decide
  constructor
  · obtain ⟨x, fresh, answers, t, made, run, top, -⟩ :=
      accumulation_is_order_independent.2 default 1 [one, other] batches parts
    exact ⟨x, fresh, answers, t, made, run, top.2 (.inr (by decide))⟩
  · obtain ⟨x, fresh, answers, t, made, run, top, union⟩ :=
      accumulation_is_order_independent.2 default 2 [one, other] batches parts
    refine ⟨x, fresh, answers, t, made, run, ?_⟩
    rw [← both]
    refine union fun full => ?_
    rcases top.1 full with any | ⟨-, more⟩
    · exact absurd any (by decide)
    · exact absurd more (by decide)

end Session

end Typeflow
