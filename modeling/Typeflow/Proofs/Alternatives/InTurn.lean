import Typeflow.Proofs.Accumulation
import Typeflow.Proofs.Lookup.Deepen

/-! Values that are asked in turn and their answers joined. The union tells neither the order of the answers nor how
they were grouped. -/
namespace Typeflow

namespace ValueSet

private theorem members_foldl_join (sets : List ValueSet) (acc : ValueSet) :
    (sets.foldl join acc).members = acc.members ⊔ sets.toFinset.sup members := by
  induction sets generalizing acc with
  | nil => simp
  | cons s rest ih =>
    rw [List.foldl_cons, ih, members_join, List.toFinset_cons, Finset.sup_insert, sup_assoc]

/-- Joining sets one by one is their union without a cap. -/
theorem foldl_join (sets : List ValueSet) : sets.foldl join empty = unionAll sets 0 := by
  rw [eq_iff_members, members_foldl_join, members_unionAll, capAt_zero, members_empty, bot_sup_eq]

private theorem mem_items_iff {a : ValueSet} {s : Finset ValueId} (same : a.members = s) {v : ValueId} :
    v ∈ a.items ↔ v ∈ s := by
  cases a with
  | top => cases same
  | of values =>
    rw [← WithTop.coe_injective same, List.mem_toFinset]
    rfl

/-- A union lists what its parts list if none of them stands for any value. -/
theorem mem_items_unionAll {α : Type} {items : List α} {found : α → ValueSet} (known : ∀ a ∈ items, found a ≠ top)
    {v : ValueId} : v ∈ (unionAll (items.map found) 0).items ↔ ∃ a ∈ items, v ∈ (found a).items := by
  have none : top ∉ items.map found := fun mem => by
    obtain ⟨a, ha, same⟩ := List.mem_map.1 mem
    exact known a ha same
  have same : (unionAll (items.map found) 0).members = listed (items.map found) := by
    rw [members_unionAll, capAt_zero, sup_members, if_neg none]
  rw [mem_items_iff same, listed, List.mem_toFinset, List.mem_flatMap]
  simp only [List.mem_map, exists_exists_and_eq_and]

/-- What is found for the members of a union is found for the members of its parts. -/
theorem unionAll_map_items {α : Type} (items : List α) (found : α → ValueSet) (result : ValueId → ValueSet)
    (known : ∀ a ∈ items, found a ≠ top) :
    unionAll ((unionAll (items.map found) 0).items.map result) 0 =
      unionAll (items.map fun a => unionAll ((found a).items.map result) 0) 0 := by
  have groups : items.map (fun a => unionAll ((found a).items.map result) 0) =
      (items.map fun a => (found a).items.map result).map (unionAll · 0) := by
    rw [List.map_map]
    rfl
  rw [groups, unionAll_flatten]
  refine unionAll_congr 0 fun s => ?_
  simp only [List.mem_map, mem_items_unionAll known, List.mem_flatten, exists_exists_and_eq_and]
  constructor
  · rintro ⟨v, ⟨a, ha, hv⟩, rfl⟩
    exact ⟨a, ha, v, hv, rfl⟩
  · rintro ⟨a, ha, v, hv, rfl⟩
    exact ⟨v, ⟨a, ha, hv⟩, rfl⟩

end ValueSet

namespace Session

variable {α β : Type} {f : α → Analysis ValueSet} {s t : Session}

/-- The items are asked one after the other, each in the session that the one before left behind. -/
inductive InTurn (f : α → Analysis ValueSet) : List α → Session → List ValueSet → Session → Prop
  | done (s : Session) : InTurn f [] s [] s
  | next {a : α} {rest : List α} {s r t : Session} {values : ValueSet} {answers : List ValueSet}
      (first : f a s = .ok values r) (others : InTurn f rest r answers t) :
      InTurn f (a :: rest) s (values :: answers) t

/-- The action yields what the items yield together, asked one after the other, and fails where the first of them
does. -/
structure Unites (m : Analysis ValueSet) (f : α → Analysis ValueSet) (items : List α) (s : Session) : Prop where
  yields : ∀ found t, m s = .ok found t ↔ ∃ answers, InTurn f items s answers t ∧ found = .unionAll answers 0
  fails : ∀ e t, m s = .error e t ↔
    ∃ before a after answers r, items = before ++ a :: after ∧ InTurn f before s answers r ∧ f a r = .error e t

/-- What does the same in the session unites the items as well. -/
theorem Unites.of_run {m n : Analysis ValueSet} {items : List α} (h : Unites m f items s) (same : n s = m s) :
    Unites n f items s where
  yields found t := by rw [same, h.yields]
  fails e t := by rw [same, h.fails]

section Fold

private theorem foldlM_join_ok (items : List α) (acc found : ValueSet) (s t : Session) :
    (items.foldlM (fun acc item => do return acc.join (← f item)) acc : Analysis ValueSet) s = .ok found t ↔
      ∃ answers, InTurn f items s answers t ∧ found = answers.foldl ValueSet.join acc := by
  induction items generalizing acc s with
  | nil =>
    constructor
    · rintro ⟨⟩
      exact ⟨[], .done _, rfl⟩
    · rintro ⟨_, ⟨⟩, rfl⟩
      rfl
  | cons a rest ih =>
    rw [List.foldlM_cons]
    constructor
    · intro run
      obtain ⟨grown, r, first, others⟩ := bind_eq_ok run
      obtain ⟨values, q, asked, ⟨⟩⟩ := bind_eq_ok first
      obtain ⟨answers, turns, rfl⟩ := (ih _ _).1 others
      exact ⟨values :: answers, .next asked turns, rfl⟩
    · rintro ⟨_, turns, rfl⟩
      cases turns with
      | @next _ _ _ r _ values answers first others =>
        have grown : (do return acc.join (← f a) : Analysis ValueSet) s = .ok (acc.join values) r := bind_of_ok first
        rw [bind_of_ok grown]
        exact (ih _ _).2 ⟨answers, others, rfl⟩

private theorem foldlM_join_error (items : List α) (acc : ValueSet) (e : Fault) (s t : Session) :
    (items.foldlM (fun acc item => do return acc.join (← f item)) acc : Analysis ValueSet) s = .error e t ↔
      ∃ before a after answers r, items = before ++ a :: after ∧ InTurn f before s answers r ∧ f a r = .error e t := by
  induction items generalizing acc s with
  | nil =>
    constructor
    · rintro ⟨⟩
    · rintro ⟨before, a, after, _, _, same, -⟩
      cases before <;> cases same
  | cons a rest ih =>
    rw [List.foldlM_cons]
    cases asked : f a s with
    | error e' r =>
      have failed : (do return acc.join (← f a) : Analysis ValueSet) s = .error e' r := bind_of_error asked
      rw [bind_of_error failed]
      constructor
      · rintro ⟨⟩
        exact ⟨[], a, rest, [], s, rfl, .done s, asked⟩
      · rintro ⟨before, b, after, answers, q, same, turns, failing⟩
        cases turns with
        | done =>
          cases same
          rw [asked] at failing
          cases failing
          rfl
        | next first _ =>
          cases same
          rw [asked] at first
          cases first
    | ok values r =>
      have grown : (do return acc.join (← f a) : Analysis ValueSet) s = .ok (acc.join values) r := bind_of_ok asked
      rw [bind_of_ok grown, ih]
      constructor
      · rintro ⟨before, b, after, answers, q, rfl, turns, failing⟩
        exact ⟨a :: before, b, after, values :: answers, q, rfl, .next asked turns, failing⟩
      · rintro ⟨before, b, after, answers, q, same, turns, failing⟩
        cases turns with
        | done =>
          cases same
          rw [asked] at failing
          cases failing
        | @next _ more _ _ _ _ others first turns =>
          cases same
          rw [asked] at first
          cases first
          exact ⟨more, b, after, others, q, rfl, turns, failing⟩

theorem unites_joinM (f : α → Analysis ValueSet) (items : List α) (s : Session) :
    Unites (ValueSet.joinM items f) f items s where
  yields found t := by
    rw [ValueSet.joinM, foldlM_join_ok]
    simp only [ValueSet.foldl_join]
  fails e t := foldlM_join_error items .empty e s t

end Fold

/-- In all sessions of the kind the action yields this and leaves a session of the kind. -/
def Certain (P : Session → Prop) (m : Analysis α) (a : α) : Prop := ∀ s, P s → ∃ t, m s = .ok a t ∧ P t

namespace Certain

variable {P : Session → Prop}

theorem bind {m : Analysis α} {g : α → Analysis β} {a : α} {b : β} (h : Certain P m a) (next : Certain P (g a) b) :
    Certain P (m >>= g) b := by
  intro s hs
  obtain ⟨r, first, hr⟩ := h s hs
  obtain ⟨t, second, ht⟩ := next r hr
  exact ⟨t, (bind_of_ok first).trans second, ht⟩

theorem joinM {g : α → ValueSet} {items : List α} (h : ∀ a ∈ items, Certain P (f a) (g a)) :
    Certain P (ValueSet.joinM items f) (.unionAll (items.map g) 0) := by
  have turns : ∀ s, P s → ∃ t, InTurn f items s (items.map g) t ∧ P t := by
    induction items with
    | nil => exact fun s hs => ⟨s, .done s, hs⟩
    | cons a rest ih =>
      intro s hs
      obtain ⟨r, first, hr⟩ := h a List.mem_cons_self s hs
      obtain ⟨t, others, ht⟩ := ih (fun b mem => h b (List.mem_cons_of_mem a mem)) r hr
      exact ⟨t, .next first others, ht⟩
  intro s hs
  obtain ⟨t, asked, ht⟩ := turns s hs
  exact ⟨t, ((unites_joinM f items s).yields _ t).2 ⟨_, asked, rfl⟩, ht⟩

/-- An answer that is certain at some depth is so at every larger one. -/
theorem deeper {depth more : Nat} {v : ValueId} {q : Question} {site : Site} {values : ValueSet}
    (h : Certain P (answerWithin depth v q site) values) (le : depth ≤ more) :
    Certain P (answerWithin more v q site) values := by
  intro s hs
  obtain ⟨t, run, ht⟩ := h s hs
  exact ⟨t, (Deepens.answerWithin le v q site s fun r ends => by rw [run] at ends; cases ends).trans run, ht⟩

/-- What does the same in all sessions of the kind is as certain. -/
theorem congr {m n : Analysis α} {a : α} (h : Certain P m a) (same : ∀ s, P s → n s = m s) : Certain P n a := by
  intro s hs
  rw [same s hs]
  exact h s hs

end Certain

end Session

end Typeflow
