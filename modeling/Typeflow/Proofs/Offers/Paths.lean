import Typeflow.Proofs.Registry.Log
import Typeflow.Proofs.Splitting

/-! Dotted names and the paths that they spell, and the tables that are put together from others. -/
namespace Typeflow

namespace Text

variable {name parent part : String}

/-- What may stand between dots. -/
def IsPart (name : String) : Prop := name ≠ "" ∧ '.' ∉ name.toList

instance (name : String) : Decidable (IsPart name) := inferInstanceAs (Decidable (_ ∧ _))

private theorem joinDots_append {above below : List String} (ha : above ≠ []) (hb : below ≠ []) :
    joinDots (above ++ below) = joinDots above ++ "." ++ joinDots below :=
  String.intercalate_append_of_ne_nil ha hb

theorem joinDots_concat {above : List String} (ha : above ≠ []) (part : String) :
    joinDots (above ++ [part]) = joinDots above ++ "." ++ part := by
  rw [joinDots_append ha (List.cons_ne_nil _ _), joinDots, joinDots, String.intercalate_singleton]

/-- A path is read off the dotted name that it spells. -/
theorem items_joinDots {path : List String} (parts : ∀ part ∈ path, IsPart part) : items '.' (joinDots path) = path := by
  apply eq_of_toList
  rw [toList_items, toList_joinDots]
  apply runsFrom_intercalate
  simpa [IsPart] using parts

theorem restAfter_eq_some {start text rest : List Char} :
    restAfter start text = some rest ↔ text = start ++ rest := by
  induction start generalizing text with
  | nil =>
    rw [restAfter, Option.some.injEq, List.nil_append]
  | cons c start ih =>
    cases text with
    | nil => simp [restAfter]
    | cons d text =>
      rw [restAfter, List.cons_append, List.cons.injEq]
      split
      · next same => rw [ih, same, and_iff_right rfl]
      · next other => exact ⟨nofun, fun same => absurd same.1.symm other⟩

/-- The children of a name are what stands a part below it. -/
theorem childName?_eq_some : childName? parent name = some part ↔ name = parent ++ "." ++ part ∧ IsPart part := by
  have below : after? (parent ++ ".") name = some part ↔ name = parent ++ "." ++ part := by
    rw [after?, chars_eq, chars_eq, Option.map_eq_some_iff]
    constructor
    · rintro ⟨rest, found, rfl⟩
      rw [← String.toList_inj, restAfter_eq_some.1 found]
      simp
    · rintro rfl
      exact ⟨part.toList, restAfter_eq_some.2 (by rw [String.toList_append]), String.ofList_toList⟩
  simp [childName?, lastPartBelow?, Option.filter_eq_some_iff, below, IsPart, hasDot, chars_eq, and_comm]

end Text

namespace NameMap

variable {α β : Type} {m : NameMap α} {name : String}

theorem Ordered.mem_iff (h : m.Ordered) {value : α} : (name, value) ∈ m.toList ↔ m.find? name = some value :=
  ⟨h.find?_of_mem, mem_of_find?⟩

theorem Ordered.insertNew (h : m.Ordered) (name : String) (value : α) : (m.insertNew name value).Ordered := by
  rw [NameMap.insertNew]
  split
  · exact h
  · exact h.insert name value

private theorem find?_insertNew (m : NameMap α) (name other : String) (value : α) :
    (m.insertNew name value).find? other = (m.find? other).or (if other = name then some value else none) := by
  rw [insertNew, contains]
  cases found : m.find? name with
  | some old =>
    rw [Option.isSome_some, if_pos rfl]
    split
    · next same => rw [same, found, Option.some_or]
    · rw [Option.or_none]
  | none =>
    rw [if_neg (by simp), find?_insert]
    split
    · next same => rw [same, found, Option.none_or]
    · rw [Option.or_none]

theorem lookupPair_map (f : String → α → β) (pairs : List (String × α)) :
    lookupPair name (pairs.map fun pair => (pair.1, f pair.1 pair.2)) = (lookupPair name pairs).map (f name) := by
  induction pairs with
  | nil => rfl
  | cons pair rest ih =>
    rw [List.map_cons, lookupPair, lookupPair, ih]
    split
    · next same => rw [same, Option.map_some]
    · rfl

private theorem lookupPair_eq_none {pairs : List (String × α)} : lookupPair name pairs = none ↔ ∀ pair ∈ pairs, pair.1 ≠ name := by
  induction pairs with
  | nil => simp [lookupPair]
  | cons pair rest ih =>
    rw [lookupPair, List.forall_mem_cons]
    split
    · next same => exact ⟨fun none => (by cases none), fun h => absurd same.symm h.1⟩
    · next other => rw [ih, and_iff_right (Ne.symm other)]

theorem Ordered.filterMap (h : m.Ordered) (f : String → α → Option β) : (m.filterMap f).Ordered := by
  refine List.Pairwise.filterMap _ (fun a b before => ?_) h
  intro c hc d hd
  obtain ⟨-, -, rfl⟩ := Option.map_eq_some_iff.1 hc
  obtain ⟨-, -, rfl⟩ := Option.map_eq_some_iff.1 hd
  exact before

theorem Ordered.find?_filterMap (h : m.Ordered) (f : String → α → Option β) :
    (m.filterMap f).find? name = (m.find? name).bind (f name) := by
  rw [Option.ext_iff]
  intro value
  rw [← (h.filterMap f).mem_iff, Option.bind_eq_some_iff]
  simp only [← h.mem_iff, NameMap.filterMap, List.mem_filterMap, Option.map_eq_some_iff, Prod.mk.injEq]
  constructor
  · rintro ⟨⟨key, old⟩, mem, new, hf, rfl, rfl⟩
    exact ⟨old, mem, hf⟩
  · rintro ⟨old, mem, hf⟩
    exact ⟨(name, old), mem, value, hf, rfl, rfl⟩

section Fold

variable {γ : Type} (pairs : List (String × γ)) (f : String → γ → α)

theorem Ordered.foldl_update (h : m.Ordered) (g : NameMap α → String → γ → α) :
    (pairs.foldl (fun m pair => m.insert pair.1 (g m pair.1 pair.2)) m).Ordered := by
  induction pairs generalizing m with
  | nil => exact h
  | cons pair rest ih => exact ih (h.insert _ _)

theorem Ordered.foldl_insert (h : m.Ordered) :
    (pairs.foldl (fun m pair => m.insert pair.1 (f pair.1 pair.2)) m).Ordered :=
  h.foldl_update pairs fun _ => f

theorem Ordered.foldl_insertNew (h : m.Ordered) :
    (pairs.foldl (fun m pair => m.insertNew pair.1 (f pair.1 pair.2)) m).Ordered := by
  induction pairs generalizing m with
  | nil => exact h
  | cons pair rest ih => exact ih (h.insertNew _ _)

/-- Each name that is listed has what is made of it and of what the table had, and the others have that. -/
theorem find?_foldl_update (g : String → Option α → γ → α) (m : NameMap α)
    (h : pairs.Pairwise fun a b => a.1 < b.1) (name : String) :
    (pairs.foldl (fun m pair => m.insert pair.1 (g pair.1 (m.find? pair.1) pair.2)) m).find? name =
      ((lookupPair name pairs).map (g name (m.find? name))).or (m.find? name) := by
  induction pairs generalizing m with
  | nil => rfl
  | cons pair rest ih =>
    obtain ⟨least, h⟩ := List.pairwise_cons.1 h
    rw [List.foldl_cons, ih _ h, find?_insert, lookupPair]
    split
    · next same =>
      have absent : lookupPair name rest = none := by
        rw [lookupPair_eq_none]
        exact fun other mem same' => absurd (least other mem) (by rw [same', same]; exact lt_irrefl _)
      rw [absent, same]
      rfl
    · rfl

/-- Of what is put over a table each name has its own, and of the others what the table has. -/
theorem find?_foldl_insert (m : NameMap α) (h : pairs.Pairwise fun a b => a.1 < b.1) (name : String) :
    (pairs.foldl (fun m pair => m.insert pair.1 (f pair.1 pair.2)) m).find? name =
      ((lookupPair name pairs).map (f name)).or (m.find? name) :=
  find?_foldl_update pairs (fun key _ => f key) m h name

/-- What is put under a table shows where the table has nothing. -/
theorem find?_foldl_insertNew (m : NameMap α) (name : String) :
    (pairs.foldl (fun m pair => m.insertNew pair.1 (f pair.1 pair.2)) m).find? name =
      (m.find? name).or ((lookupPair name pairs).map (f name)) := by
  induction pairs generalizing m with
  | nil => rw [List.foldl_nil, lookupPair, Option.map_none, Option.or_none]
  | cons pair rest ih =>
    rw [List.foldl_cons, ih, find?_insertNew, lookupPair, Option.or_assoc]
    split
    · next same => rw [same, Option.some_or, Option.map_some]
    · rw [Option.none_or]

/-- Of names that each have one value or none those that have one make up a table. -/
theorem find?_ofList_filterMap (names : List String) (g : String → Option α) (name : String) :
    (ofList (names.filterMap fun n => (g n).map (n, ·))).find? name = if name ∈ names then g name else none := by
  have loop : ∀ (names : List String) (m : NameMap α),
      ((names.filterMap fun n => (g n).map (n, ·)).foldl (fun m pair => m.insert pair.1 pair.2) m).find? name =
        (if name ∈ names then g name else none).or (m.find? name) := by
    intro names
    induction names with
    | nil => exact fun _ => rfl
    | cons first rest ih =>
      intro m
      cases own : g first with
      | none =>
        rw [List.filterMap_cons_none (by rw [own]; rfl), ih]
        by_cases same : name = first
        · simp [same, own]
        · simp [same]
      | some value =>
        rw [List.filterMap_cons_some (b := (first, value)) (by rw [own]; rfl), List.foldl_cons, ih, find?_insert]
        by_cases same : name = first
        · rw [if_pos same, same, own, if_pos List.mem_cons_self]
          split <;> rfl
        · simp [same]
  have whole := loop names empty
  rwa [find?_empty, Option.or_none] at whole

end Fold

end NameMap

end Typeflow
