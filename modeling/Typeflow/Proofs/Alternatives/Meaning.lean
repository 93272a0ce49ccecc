import Typeflow.Proofs.Identity.Truthful
import Typeflow.Proofs.Lookup.Total

/-! What a set of alternatives stands for: the values in it that are no such sets themselves, however deep sets are
nested in it. -/
namespace Typeflow.Session

variable {s t : Session} {v w u : ValueId} {found : Found} {members : List Found}

/-- The second value is no set of alternatives. It is the first one, or one of its alternatives, or of theirs, and
so on. -/
inductive Denotes (s : Session) : ValueId → ValueId → Prop
  | itself {v : ValueId} (single : (s.form v).kind ≠ .multipleMembers) : Denotes s v v
  | alternative {v w u : ValueId} {members : List ValueId} (several : s.form v = .multiple members)
      (mem : w ∈ members) (rest : Denotes s w u) : Denotes s v u

/-- The values that what has been found stands for. -/
def meanings (s : Session) (found : Found) : Set ValueId := {u | ∃ v, found = some v ∧ s.Denotes v u}

@[simp] theorem meanings_none : s.meanings none = ∅ := by simp [meanings]

@[simp] theorem meanings_some : s.meanings (some v) = {u | s.Denotes v u} := by simp [meanings]

/-- The value has been made. If it is a set of alternatives it has at least two, none of them twice, and each of
these is such a value. -/
inductive Proper (s : Session) : ValueId → Prop
  | single {v : ValueId} (there : v.index < s.values.size) (single : (s.form v).kind ≠ .multipleMembers) :
      Proper s v
  | several {v : ValueId} {members : List ValueId} (there : v.index < s.values.size)
      (several : s.form v = .multiple members) (distinct : members.Nodup) (many : 2 ≤ members.length)
      (each : ∀ w ∈ members, Proper s w) : Proper s v

namespace Denotes

private theorem of_single (h : s.Denotes v u) (single : (s.form v).kind ≠ .multipleMembers) : u = v := by
  cases h with
  | itself => rfl
  | alternative several =>
    rw [several] at single
    exact absurd rfl single

private theorem iff_of_several {members : List ValueId} (several : s.form v = .multiple members) :
    s.Denotes v u ↔ ∃ w ∈ members, s.Denotes w u := by
  constructor
  · intro h
    cases h with
    | itself single =>
      rw [several] at single
      exact absurd rfl single
    | alternative same mem rest =>
      rw [several] at same
      cases same
      exact ⟨_, mem, rest⟩
  · rintro ⟨w, mem, rest⟩
    exact .alternative several mem rest

end Denotes

namespace Proper

private theorem exists_denotes (h : s.Proper v) : ∃ u, s.Denotes v u := by
  induction h with
  | single _ single => exact ⟨_, .itself single⟩
  | @several v members _ several _ many _ ih =>
    have there : 0 < members.length := by omega
    obtain ⟨u, stands⟩ := ih members[0] (List.getElem_mem there)
    exact ⟨u, .alternative several (List.getElem_mem there) stands⟩

/-- A value that stands for one value only is that value. -/
theorem eq_of_only (h : s.Proper v) (only : ∀ u, s.Denotes v u → u = w) : v = w := by
  induction h with
  | single _ single => exact only _ (.itself single)
  | @several v members _ several distinct many _ ih =>
    -- Two alternatives would both be that one value.
    have same : ∀ m ∈ members, m = w := fun m mem => ih m mem fun u stands => only u (.alternative several mem stands)
    have alike : members[0] = members[1] :=
      (same _ (List.getElem_mem _)).trans (same _ (List.getElem_mem _)).symm
    cases (List.Nodup.getElem_inj_iff distinct).1 alike

/-- What is fixed about values keeps them proper, and they stand for what they stood for. -/
theorem fixes (h : s.Proper v) (fixes : Fixes s t) :
    t.Proper v ∧ ∀ u, t.Denotes v u ↔ s.Denotes v u := by
  induction h with
  | @single v there single =>
    have later : (t.form v).kind ≠ .multipleMembers := by rwa [fixes.kind v there]
    refine ⟨.single (Nat.lt_of_lt_of_le there fixes.size) later, fun u => ⟨fun stands => ?_, fun stands => ?_⟩⟩
    · rw [stands.of_single later]
      exact .itself single
    · rw [stands.of_single single]
      exact .itself later
  | @several v members there several distinct many _ ih =>
    have later : t.form v = .multiple members := by
      rw [fixes.shared v there (by rw [several]; rfl), several]
    refine ⟨.several (Nat.lt_of_lt_of_le there fixes.size) later distinct many fun w mem => (ih w mem).1, fun u => ?_⟩
    rw [Denotes.iff_of_several later, Denotes.iff_of_several several]
    exact exists_congr fun w => and_congr_right fun mem => (ih w mem).2 u

end Proper

/-- What has been found is proper, if it is anything. -/
def Firm (s : Session) (found : Found) : Prop := ∀ v, found = some v → s.Proper v

namespace Firm

theorem none : s.Firm none := nofun

theorem fixes (h : s.Firm found) (fixes : Fixes s t) : t.Firm found := fun v same => ((h v same).fixes fixes).1

theorem meanings (h : s.Firm found) (fixes : Fixes s t) : t.meanings found = s.meanings found := by
  cases found with
  | none => simp
  | some v =>
    rw [meanings_some, meanings_some]
    ext u
    exact ((h v rfl).fixes fixes).2 u

theorem eq_none_iff (h : s.Firm found) : found = .none ↔ s.meanings found = ∅ := by
  constructor
  · rintro rfl
    exact meanings_none
  · intro empty
    cases found with
    | none => rfl
    | some v =>
      obtain ⟨u, stands⟩ := (h v rfl).exists_denotes
      have mem : u ∈ s.meanings (some v) := ⟨v, rfl, stands⟩
      rw [empty] at mem
      cases mem

/-- A single value is not wrapped. -/
theorem eq_some (h : s.Firm found) (only : s.meanings found = {w}) : found = some w := by
  cases found with
  | none =>
    rw [meanings_none] at only
    exact absurd only.symm (Set.singleton_ne_empty w)
  | some v =>
    refine congrArg some ((h v rfl).eq_of_only fun u stands => ?_)
    have mem : u ∈ s.meanings (some v) := ⟨v, rfl, stands⟩
    rwa [only] at mem

end Firm

/-- What alternatives are put together as: nothing, the only one of them, or what is kept for them in a memo table. -/
theorem aggregate_cases (members : List Found) :
    let listed := (ValueList.ofList (members.filterMap fun v => v)).toList
    (listed = [] ∧ aggregate members = pure none) ∨
      (∃ only, listed = [only] ∧ aggregate members = pure (some only)) ∨
      2 ≤ listed.length ∧ ∃ make, aggregate members = aggregateField.recall (alternativesKey listed) make := by
  intro listed
  unfold aggregate
  split
  · next none => exact .inl ⟨none, rfl⟩
  · next only one => exact .inr (.inl ⟨only, one, rfl⟩)
  · next first rest more several =>
    have same : listed = first :: rest := several
    refine .inr (.inr ⟨?_, same ▸ ⟨_, rfl⟩⟩)
    cases rest with
    | nil => exact absurd rfl more
    | cons second rest => simp [same]

/-- Alternatives together stand for what each of them stands for. -/
theorem aggregate_meanings (reliable : Reliable s) (firm : ∀ f ∈ members, s.Firm f) :
    ∃ found t, aggregate members s = .ok found t ∧ t.Firm found ∧
      ∀ u, u ∈ t.meanings found ↔ ∃ f ∈ members, u ∈ t.meanings f := by
  obtain ⟨found, run⟩ := total_aggregate members s
  have roams : Roams noLicence .all (aggregate members) Realm.all.found := .aggregate fun _ _ _ _ => trivial
  have fixes : Fixes s (after (aggregate members) s) := .of_roams roams s
  have later : Reliable (after (aggregate members) s) := reliable.of_roams roams
  refine ⟨found, _, run, ?_⟩
  generalize after (aggregate members) s = t at run fixes later
  have cases := aggregate_cases members
  have mem_listed : ∀ v, v ∈ (ValueList.ofList (members.filterMap fun v => v)).toList ↔ some v ∈ members :=
    fun v => by simp
  have distinct := ValueList.nodup (.ofList (members.filterMap fun v => v))
  generalize (ValueList.ofList (members.filterMap fun v => v)).toList = listed at cases mem_listed distinct
  have proper : ∀ v ∈ listed, t.Proper v := fun v mem =>
    ((firm _ ((mem_listed v).1 mem) v rfl).fixes fixes).1
  have union : ∀ u, (∃ f ∈ members, u ∈ t.meanings f) ↔ ∃ v ∈ listed, t.Denotes v u := fun u => by
    constructor
    · rintro ⟨f, mem, v, rfl, stands⟩
      exact ⟨v, (mem_listed v).2 mem, stands⟩
    · rintro ⟨v, mem, stands⟩
      exact ⟨some v, (mem_listed v).1 mem, v, rfl, stands⟩
  simp only [union]
  obtain ⟨rfl, same⟩ | ⟨only, rfl, same⟩ | ⟨many, make, same⟩ := cases <;> rw [same] at run
  · cases run
    exact ⟨.none, by simp⟩
  · cases run
    exact ⟨by rintro v ⟨⟩; exact proper _ (List.mem_singleton_self _), by simp⟩
  · have kept : t.aggregates.find? (alternativesKey listed) = some found :=
      CacheField.find?_of_recall (fun _ _ => rfl) (by simp) run
    cases found with
    | none => exact absurd kept (later.rest.aggregates (alternativesKey listed))
    | some v =>
      obtain ⟨there, several⟩ := later.truthful.aggregates listed v kept
      refine ⟨?_, fun u => ?_⟩
      · rintro w ⟨⟩
        exact .several there several distinct many proper
      · rw [meanings_some]
        exact Denotes.iff_of_several several

end Typeflow.Session
