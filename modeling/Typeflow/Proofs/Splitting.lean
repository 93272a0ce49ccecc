import Mathlib.Data.List.Basic
import Typeflow.Text.Split

/-! Cutting a text at a separator with and without the empty pieces: what the pieces are, and that a dotted name
is read the same both ways. -/
namespace Typeflow.Text

section Run

variable {α : Type} {sep : α} {text current before behind run : List α} {start : Nat}

/-- The run stands at this place of the text, has no separator in it and cannot be made longer. -/
structure IsRun (sep : α) (text : List α) (start : Nat) (run : List α) : Prop where
  some : run ≠ []
  plain : sep ∉ run
  bounded : ∃ before behind, text = before ++ run ++ behind ∧ before.length = start ∧
    (∀ c ∈ before.getLast?, c = sep) ∧ ∀ c ∈ behind.head?, c = sep

/-- These are all the runs of the text, one after the other. -/
def AreRuns (sep : α) (text : List α) (runs : List (List α)) : Prop :=
  ∃ placed : List (Nat × List α), placed.map (·.2) = runs ∧ placed.Pairwise (·.1 < ·.1) ∧
    ∀ start run, (start, run) ∈ placed ↔ IsRun sep text start run

/-- Two stretches without a separator that begin at one place and end at separators are the same. -/
theorem eq_of_closed {other rest : List α} (same : current ++ behind = other ++ rest) (plain : sep ∉ current)
    (plainOther : sep ∉ other) (closes : ∀ c ∈ behind.head?, c = sep) (closesOther : ∀ c ∈ rest.head?, c = sep) :
    other = current := by
  rcases List.append_eq_append_iff.1 same with ⟨more, rfl, back⟩ | ⟨more, rfl, back⟩
  · cases more with
    | nil => simp
    | cons c more =>
      have cut : c = sep := closes c (by simp [back])
      simp [cut] at plainOther
  · cases more with
    | nil => simp
    | cons c more =>
      have cut : c = sep := closesOther c (by simp [back])
      simp [cut] at plain

/-- A run from a separator on comes before the next separator and is all that does, or it comes later. -/
theorem IsRun.first_or_later (h : IsRun sep (before ++ current ++ behind) start run) (plain : sep ∉ current)
    (closes : ∀ c ∈ behind.head?, c = sep) (onward : before.length ≤ start) :
    start = before.length ∧ run = current ∨ before.length + current.length < start := by
  obtain ⟨front, back, same, rfl, opens, ends⟩ := h.bounded
  rw [List.append_assoc, List.append_assoc] at same
  have further : before <+: front := by
    have first : before <+: before ++ (current ++ behind) := List.prefix_append before _
    have second : front <+: before ++ (current ++ behind) := ⟨run ++ back, same.symm⟩
    exact List.prefix_of_prefix_length_le first second onward
  obtain ⟨between, rfl⟩ := further
  rw [List.append_assoc, List.append_cancel_left_eq] at same
  by_cases here : between = []
  · left
    rw [here, List.nil_append] at same
    exact ⟨by simp [here], eq_of_closed same plain h.plain closes ends⟩
  · -- What comes between ends in a separator, so that it is no part of the current stretch.
    right
    have cut : between.getLast here = sep := by
      apply opens
      rw [List.getLast?_append, List.getLast?_eq_some_getLast here]
      rfl
    have mem : sep ∈ between := cut ▸ List.getLast_mem here
    have longer : current.length < between.length := by
      by_contra short
      have first : between <+: current ++ behind := ⟨run ++ back, same.symm⟩
      have second : current <+: current ++ behind := List.prefix_append current behind
      have inside : between <+: current := List.prefix_of_prefix_length_le first second (by omega)
      exact plain (inside.subset mem)
    rw [List.length_append]
    omega

private theorem isRun_of_closed (some : current ≠ []) (plain : sep ∉ current) (opens : ∀ c ∈ before.getLast?, c = sep)
    (closes : ∀ c ∈ behind.head?, c = sep) : IsRun sep (before ++ current ++ behind) before.length current :=
  ⟨some, plain, before, behind, rfl, rfl, opens, closes⟩

/-- A stretch that is closed at both ends is put before the runs that come later, unless it is empty. -/
theorem places_of_closed {placed : List (Nat × List α)} (plain : sep ∉ current)
    (opens : ∀ c ∈ before.getLast?, c = sep) (closes : ∀ c ∈ behind.head?, c = sep)
    (order : placed.Pairwise (·.1 < ·.1))
    (later : ∀ start run, (start, run) ∈ placed ↔
      before.length + current.length < start ∧ IsRun sep (before ++ current ++ behind) start run) :
    let all := if current.isEmpty then placed else (before.length, current) :: placed
    all.Pairwise (·.1 < ·.1) ∧ ∀ start run, (start, run) ∈ all ↔
      before.length ≤ start ∧ IsRun sep (before ++ current ++ behind) start run := by
  intro all
  by_cases empty : current = []
  · have same : all = placed := by simp [all, empty]
    rw [same]
    refine ⟨order, ?_⟩
    intro start run
    rw [later]
    constructor
    · rintro ⟨further, h⟩
      exact ⟨by omega, h⟩
    · rintro ⟨onward, h⟩
      rcases h.first_or_later plain closes onward with ⟨-, same⟩ | further
      · exact absurd (same.trans empty) h.some
      · exact ⟨further, h⟩
  · have same : all = (before.length, current) :: placed := by simp [all, empty]
    rw [same]
    constructor
    · rw [List.pairwise_cons]
      refine ⟨?_, order⟩
      rintro ⟨start, run⟩ mem
      have further := ((later start run).1 mem).1
      change before.length < start
      omega
    · intro start run
      rw [List.mem_cons, later, Prod.mk.injEq]
      constructor
      · rintro (⟨rfl, rfl⟩ | ⟨further, h⟩)
        · exact ⟨Nat.le_refl _, isRun_of_closed empty plain opens closes⟩
        · exact ⟨by omega, h⟩
      · rintro ⟨onward, h⟩
        rcases h.first_or_later plain closes onward with here | further
        · exact .inl here
        · exact .inr ⟨further, h⟩

end Run

section Cut

variable {α : Type} [DecidableEq α] {sep : α} {text current before behind run piece : List α} {start : Nat}

private theorem segmentsFrom_ne_nil (sep : α) (current text : List α) : segmentsFrom sep current text ≠ [] := by
  induction text generalizing current with
  | nil => exact List.cons_ne_nil _ _
  | cons c rest ih =>
    unfold segmentsFrom
    split
    · exact List.cons_ne_nil _ _
    · exact ih (current ++ [c])

/-- Joining the pieces gives the text back. -/
theorem intercalate_segmentsFrom (sep : α) (current text : List α) :
    [sep].intercalate (segmentsFrom sep current text) = current ++ text := by
  induction text generalizing current with
  | nil => simp [segmentsFrom]
  | cons c rest ih =>
    unfold segmentsFrom
    by_cases cut : c = sep
    · have more := segmentsFrom_ne_nil sep [] rest
      rw [if_pos cut, List.intercalate_cons_of_ne_nil more, ih, cut]
      simp
    · rw [if_neg cut, ih]
      simp

private theorem notMem_segmentsFrom (plain : sep ∉ current) : ∀ piece ∈ segmentsFrom sep current text, sep ∉ piece := by
  induction text generalizing current with
  | nil => simpa [segmentsFrom] using plain
  | cons c rest ih =>
    unfold segmentsFrom
    by_cases cut : c = sep
    · rw [if_pos cut, List.forall_mem_cons]
      exact ⟨plain, ih List.not_mem_nil⟩
    · rw [if_neg cut]
      apply ih
      simp [plain, Ne.symm cut]

/-- Dropping the empty pieces leaves the runs. -/
theorem runsFrom_eq_filter (sep : α) (current text : List α) :
    runsFrom sep current text = (segmentsFrom sep current text).filter (· ≠ []) := by
  induction text generalizing current with
  | nil => cases current <;> simp [runsFrom, segmentsFrom]
  | cons c rest ih =>
    unfold runsFrom segmentsFrom
    by_cases cut : c = sep
    · cases current <;> simp [cut, ih]
    · rw [if_neg cut, if_neg cut, ih]

/-- A piece is read up to the next separator. -/
theorem segmentsFrom_append (plain : sep ∉ piece) (current rest : List α) :
    segmentsFrom sep current (piece ++ rest) = segmentsFrom sep (current ++ piece) rest := by
  induction piece generalizing current with
  | nil => simp
  | cons c piece ih =>
    obtain ⟨other, plain⟩ := not_or.1 (mt List.mem_cons.2 plain)
    rw [List.cons_append, segmentsFrom, if_neg (Ne.symm other), ih plain]
    simp

/-- Names without a separator are read off the text that they are joined to. -/
theorem segmentsFrom_intercalate {names : List (List α)} (some : names ≠ []) (plain : ∀ name ∈ names, sep ∉ name) :
    segmentsFrom sep [] ([sep].intercalate names) = names := by
  induction names with
  | nil => exact absurd rfl some
  | cons first rest ih =>
    obtain ⟨plainFirst, plainRest⟩ := List.forall_mem_cons.1 plain
    cases rest with
    | nil =>
      have read := segmentsFrom_append plainFirst [] []
      rw [List.append_nil] at read
      rw [List.intercalate_singleton, read]
      rfl
    | cons second rest =>
      rw [List.intercalate_cons_cons, List.append_assoc, segmentsFrom_append plainFirst, List.singleton_append,
        segmentsFrom, if_pos rfl, ih (List.cons_ne_nil _ _) plainRest]
      rfl

/-- From a separator on the runs are found one by one, each where it stands. -/
theorem runsFrom_places (text : List α) (plain : sep ∉ current) (opens : ∀ c ∈ before.getLast?, c = sep) :
    ∃ placed : List (Nat × List α), placed.map (·.2) = runsFrom sep current text ∧
      placed.Pairwise (·.1 < ·.1) ∧ ∀ start run, (start, run) ∈ placed ↔
        before.length ≤ start ∧ IsRun sep (before ++ current ++ text) start run := by
  induction text generalizing before current with
  | nil =>
    have later : ∀ start run, (start, run) ∈ ([] : List (Nat × List α)) ↔
        before.length + current.length < start ∧ IsRun sep (before ++ current ++ []) start run := by
      intro start run
      have none : ¬(before.length + current.length < start ∧ IsRun sep (before ++ current ++ []) start run) := by
        rintro ⟨further, h⟩
        obtain ⟨front, back, same, rfl, -, -⟩ := h.bounded
        have long := congrArg List.length same
        simp only [List.length_append, List.length_nil] at long
        omega
      exact iff_of_false List.not_mem_nil none
    obtain ⟨order, all⟩ := places_of_closed plain opens (by simp) .nil later
    refine ⟨_, ?_, order, all⟩
    cases current <;> rfl
  | cons c rest ih =>
    unfold runsFrom
    by_cases cut : c = sep
    · subst cut
      have split : before ++ current ++ c :: rest = before ++ current ++ [c] ++ [] ++ rest := by simp
      have cuts : ∀ d ∈ (before ++ current ++ [c]).getLast?, d = c := by simp
      obtain ⟨placed, runs, order, later⟩ := ih List.not_mem_nil cuts
      have later' : ∀ start run, (start, run) ∈ placed ↔
          before.length + current.length < start ∧ IsRun c (before ++ current ++ c :: rest) start run := by
        intro start run
        rw [later, split, List.length_append, List.length_append, List.length_singleton, Nat.succ_le_iff]
      obtain ⟨order, all⟩ := places_of_closed plain opens (by simp) order later'
      refine ⟨_, ?_, order, all⟩
      rw [if_pos rfl, ← runs]
      cases current <;> rfl
    · have plain' : sep ∉ current ++ [c] := by simp [plain, Ne.symm cut]
      obtain ⟨placed, runs, order, all⟩ := ih plain' opens
      rw [if_neg cut]
      refine ⟨placed, runs, order, ?_⟩
      intro start run
      rw [all]
      simp

private theorem areRuns_runsFrom (sep : α) (text : List α) : AreRuns sep text (runsFrom sep [] text) := by
  have opens : ∀ c ∈ ([] : List α).getLast?, c = sep := by simp
  obtain ⟨placed, runs, order, all⟩ := runsFrom_places text (List.not_mem_nil (a := sep)) opens
  refine ⟨placed, runs, order, ?_⟩
  intro start run
  rw [all]
  simp

theorem runsFrom_intercalate {names : List (List α)} (parts : ∀ name ∈ names, name ≠ [] ∧ sep ∉ name) :
    runsFrom sep [] ([sep].intercalate names) = names := by
  rw [runsFrom_eq_filter]
  by_cases none : names = []
  · subst none
    rfl
  · rw [segmentsFrom_intercalate none fun name mem => (parts name mem).2]
    apply List.filter_eq_self.2
    intro name mem
    simpa using (parts name mem).1

end Cut

private theorem toList_dotted (text : String) : (dotted text).map String.toList = segmentsFrom '.' [] text.toList := by
  rw [dotted, chars_eq, List.map_map]
  exact List.map_id'' (fun _ => String.toList_ofList) _

theorem toList_items (sep : Char) (text : String) : (items sep text).map String.toList = runsFrom sep [] text.toList := by
  rw [items, chars_eq, List.map_map]
  exact List.map_id'' (fun _ => String.toList_ofList) _

theorem toList_joinDots (names : List String) :
    (joinDots names).toList = ['.'].intercalate (names.map String.toList) := String.toList_intercalate

/-- Two lists of texts are the same when their characters are. -/
theorem eq_of_toList {names others : List String} (same : names.map String.toList = others.map String.toList) :
    names = others := List.map_injective_iff.2 (fun _ _ alike => String.toList_injective alike) same

/-- Cutting at a separator with the empty pieces loses nothing; without them all runs of other characters are left,
and these are the pieces that are not empty. So dotted names are read the same both ways when no part of them is
empty. This holds of characters as of bytes. -/
theorem splitters_agree :
    (∀ {α : Type} [DecidableEq α] (sep : α) (text : List α),
      [sep].intercalate (segmentsFrom sep [] text) = text ∧
      (∀ piece ∈ segmentsFrom sep [] text, sep ∉ piece) ∧
      AreRuns sep text (runsFrom sep [] text) ∧
      runsFrom sep [] text = (segmentsFrom sep [] text).filter (· ≠ []) ∧
      ∀ names : List (List α), names ≠ [] → (∀ name ∈ names, name ≠ [] ∧ sep ∉ name) →
        segmentsFrom sep [] ([sep].intercalate names) = names ∧ runsFrom sep [] ([sep].intercalate names) = names) ∧
    ∀ text : String,
      joinDots (dotted text) = text ∧
      (∀ piece ∈ dotted text, '.' ∉ piece.toList) ∧
      (∀ sep, AreRuns sep text.toList ((items sep text).map String.toList)) ∧
      items '.' text = (dotted text).filter (· ≠ "") ∧
      ∀ names : List String, names ≠ [] → (∀ name ∈ names, name ≠ "" ∧ '.' ∉ name.toList) →
        dotted (joinDots names) = names ∧ items '.' (joinDots names) = names := by
  constructor
  · intro α _ sep text
    refine ⟨intercalate_segmentsFrom sep [] text, notMem_segmentsFrom List.not_mem_nil, areRuns_runsFrom sep text,
      runsFrom_eq_filter sep [] text, ?_⟩
    intro names some parts
    exact ⟨segmentsFrom_intercalate some fun name mem => (parts name mem).2, runsFrom_intercalate parts⟩
  · intro text
    refine ⟨?_, ?_, ?_, ?_, ?_⟩
    · apply String.toList_injective
      rw [toList_joinDots, toList_dotted]
      exact intercalate_segmentsFrom '.' [] text.toList
    · intro piece mem
      have pieces : ∀ piece ∈ segmentsFrom '.' [] text.toList, '.' ∉ piece := notMem_segmentsFrom List.not_mem_nil
      apply pieces
      rw [← toList_dotted]
      exact List.mem_map_of_mem mem
    · intro sep
      rw [toList_items]
      exact areRuns_runsFrom sep text.toList
    · apply eq_of_toList
      rw [toList_items, runsFrom_eq_filter, ← toList_dotted, List.filter_map]
      simp [Function.comp_def]
    · intro names some parts
      have lists : ∀ name ∈ names.map String.toList, name ≠ [] ∧ '.' ∉ name := by
        simpa using parts
      constructor
      · apply eq_of_toList
        rw [toList_dotted, toList_joinDots]
        exact segmentsFrom_intercalate (by simpa using some) fun name mem => (lists name mem).2
      · apply eq_of_toList
        rw [toList_items, toList_joinDots]
        exact runsFrom_intercalate lists

/-- The empty pieces tell where separators follow each other and where one ends the text. -/
example : dotted "a..b." = ["a", "", "b", ""] ∧ items '.' "a..b." = ["a", "b"] := by decide

end Typeflow.Text
