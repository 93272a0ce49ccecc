import Mathlib.Data.String.Basic
import Typeflow.Proofs.Action
import Typeflow.Session.Modules

/-! The log of registrations: one for each function of a module, found under the name of the module. -/
namespace Typeflow

namespace NameMap

variable {α : Type}

/-- The names stand in strictly increasing order. -/
def Ordered (m : NameMap α) : Prop := m.toList.Pairwise fun a b => a.1 < b.1

theorem ordered_empty : Ordered ({} : NameMap α) := .nil

theorem mem_insertPair {name : String} {value : α} {pair : String × α} {pairs : List (String × α)}
    (h : pair ∈ insertPair name value pairs) : pair = (name, value) ∨ pair ∈ pairs := by
  induction pairs with
  | nil => exact .inl (List.mem_singleton.1 h)
  | cons first rest ih =>
    obtain ⟨key, old⟩ := first
    rw [insertPair] at h
    split_ifs at h
    · exact (List.mem_cons.1 h).imp_right (List.mem_cons_of_mem _)
    · exact List.mem_cons.1 h
    · rcases List.mem_cons.1 h with rfl | h
      · exact .inr List.mem_cons_self
      · exact (ih h).imp_right (List.mem_cons_of_mem _)

theorem mem_insert {m : NameMap α} {name : String} {value : α} {pair : String × α}
    (h : pair ∈ (m.insert name value).toList) : pair = (name, value) ∨ pair ∈ m.toList :=
  mem_insertPair h

theorem Ordered.insert {m : NameMap α} (h : m.Ordered) (name : String) (value : α) :
    (m.insert name value).Ordered := by
  have loop : ∀ pairs : List (String × α), pairs.Pairwise (fun a b => a.1 < b.1) →
      (insertPair name value pairs).Pairwise fun a b => a.1 < b.1 := by
    intro pairs
    induction pairs with
    | nil => exact fun _ => List.pairwise_singleton _ _
    | cons first rest ih =>
      obtain ⟨key, old⟩ := first
      intro ordered
      obtain ⟨least, ordered⟩ := List.pairwise_cons.1 ordered
      rw [insertPair]
      split_ifs with same less
      · exact List.pairwise_cons.2 ⟨fun pair hp => same ▸ least pair hp, ordered⟩
      · refine List.pairwise_cons.2 ⟨fun pair hp => ?_, List.pairwise_cons.2 ⟨least, ordered⟩⟩
        rcases List.mem_cons.1 hp with rfl | hp
        · exact less
        · exact less.trans (least pair hp)
      · refine List.pairwise_cons.2 ⟨fun pair hp => ?_, ih ordered⟩
        rcases mem_insertPair hp with rfl | hp
        · exact lt_of_le_of_ne (not_lt.1 less) (Ne.symm same)
        · exact least pair hp
  exact loop m.toList h

theorem mem_of_find? {m : NameMap α} {name : String} {value : α} (h : m.find? name = some value) :
    (name, value) ∈ m.toList := by
  have loop : ∀ pairs : List (String × α), lookupPair name pairs = some value →
      (name, value) ∈ pairs := by
    intro pairs
    induction pairs with
    | nil => nofun
    | cons first rest ih =>
      obtain ⟨key, old⟩ := first
      rw [lookupPair]
      split_ifs with same
      · rintro ⟨⟩
        exact same ▸ List.mem_cons_self
      · exact fun found => List.mem_cons_of_mem _ (ih found)
  exact loop m.toList h

/-- What stands in an ordered map is what is found. -/
theorem Ordered.find?_of_mem {m : NameMap α} (h : m.Ordered) {name : String} {value : α}
    (hm : (name, value) ∈ m.toList) : m.find? name = some value := by
  have loop : ∀ pairs : List (String × α), pairs.Pairwise (fun a b => a.1 < b.1) →
      (name, value) ∈ pairs → lookupPair name pairs = some value := by
    intro pairs
    induction pairs with
    | nil => exact fun _ absent => nomatch absent
    | cons first rest ih =>
      intro ordered present
      obtain ⟨least, ordered⟩ := List.pairwise_cons.1 ordered
      rcases List.mem_cons.1 present with rfl | later
      · rw [lookupPair, if_pos rfl]
      · rw [lookupPair, if_neg (ne_of_gt (least _ later)), ih ordered later]
  exact loop m.toList h hm

end NameMap

/-- What a registration is for: a function by the names of its module and its own. -/
def Registration.key (r : Registration) : String × String := (r.module, r.name)

/-- What the last of the registrations of a kind asks for, or else what there was before. -/
def held (kind : Registration → Prop) [DecidablePred kind] (rs : List Registration)
    (before : Option Specialization) : Option Specialization :=
  rs.foldl (fun found r => if kind r then some r.specialization else found) before

section Held

variable {kind other : Registration → Prop} [DecidablePred kind] [DecidablePred other]
  {rs : List Registration} {before : Option Specialization}

theorem held_append (more : List Registration) :
    held kind (rs ++ more) before = held kind more (held kind rs before) := List.foldl_append

theorem held_congr (h : ∀ r ∈ rs, kind r ↔ other r) : held kind rs before = held other rs before :=
  List.foldl_ext _ _ _ fun found r hr => by simp only [h r hr]

/-- What was there before shows when there is none of the kind. -/
theorem held_eq_or : held kind rs before = (held kind rs none).or before := by
  induction rs generalizing before with
  | nil => rfl
  | cons r rest ih =>
    have more : ∀ first : Option Specialization, held kind (r :: rest) first =
        held kind rest (if kind r then some r.specialization else first) := fun _ => rfl
    rw [more, more]
    by_cases hk : kind r
    · rw [if_pos hk, if_pos hk, ih, Option.or_assoc, Option.some_or]
    · rw [if_neg hk, if_neg hk, ih]

theorem held_or (other : Option Specialization) :
    (held kind rs before).or other = held kind rs (before.or other) := by
  calc (held kind rs before).or other
      = ((held kind rs none).or before).or other := by rw [held_eq_or]
    _ = (held kind rs none).or (before.or other) := Option.or_assoc
    _ = held kind rs (before.or other) := held_eq_or.symm

/-- When those of the kind ask for what was there before, that stays. -/
theorem held_eq_before (h : ∀ r ∈ rs, kind r → some r.specialization = before) :
    held kind rs before = before := by
  induction rs with
  | nil => rfl
  | cons r rest ih =>
    have more : held kind rest before = before := ih fun r hr => h r (List.mem_cons_of_mem _ hr)
    by_cases hk : kind r
    · simpa only [held, List.foldl_cons, if_pos hk, h r List.mem_cons_self hk] using more
    · simpa only [held, List.foldl_cons, if_neg hk] using more

/-- When there is one of the kind, what was there before does not matter. -/
theorem held_of_mem (h : ∃ r ∈ rs, kind r) (after_ : Option Specialization) :
    held kind rs before = held kind rs after_ := by
  induction rs generalizing before after_ with
  | nil => exact absurd h.choose_spec.1 List.not_mem_nil
  | cons r rest ih =>
    by_cases hk : kind r
    · simp only [held, List.foldl_cons, if_pos hk]
    · obtain ⟨found, hf, hkf⟩ := h
      rcases List.mem_cons.1 hf with rfl | hf
      · exact absurd hkf hk
      · simpa only [held, List.foldl_cons, if_neg hk] using ih ⟨found, hf, hkf⟩ after_

theorem isSome_held (h : before.isSome ∨ ∃ r ∈ rs, kind r) : (held kind rs before).isSome := by
  induction rs generalizing before with
  | nil => exact h.resolve_right fun ⟨_, hr, _⟩ => nomatch hr
  | cons r rest ih =>
    rw [held, List.foldl_cons]
    refine ih ?_
    by_cases hk : kind r
    · exact .inl (by rw [if_pos hk]; rfl)
    · rw [if_neg hk]
      rcases h with h | ⟨found, hf, hkf⟩
      · exact .inl h
      · rcases List.mem_cons.1 hf with rfl | hf
        · exact absurd hkf hk
        · exact .inr ⟨found, hf, hkf⟩

/-- What is held came from a registration of the kind or was there before. -/
theorem of_held {found : Specialization} (h : held kind rs before = some found) :
    before = some found ∨ ∃ r ∈ rs, kind r ∧ r.specialization = found := by
  induction rs generalizing before with
  | nil => exact .inl h
  | cons r rest ih =>
    rw [held, List.foldl_cons] at h
    rcases ih h with h | ⟨r, hr, hk, same⟩
    · split_ifs at h with hk
      · exact .inr ⟨r, List.mem_cons_self, hk, Option.some.inj h⟩
      · exact .inl h
    · exact .inr ⟨r, List.mem_cons_of_mem _ hr, hk, same⟩

end Held

namespace Session

/-- Everything that is registered, in the order in which it is installed again. -/
def logged (s : Session) : List Registration := s.registrations.values.flatten

/-- What is registered for a function. -/
def registered? (s : Session) (key : String × String) : Option Specialization :=
  ((s.registrations.findD key.1 []).find? fun r => r.name = key.2).map (·.specialization)

/-- Registrations are kept under the names of their modules, one for each name. -/
structure Filed (s : Session) : Prop where
  ordered : s.registrations.Ordered
  own : ∀ pair ∈ s.registrations.toList, ∀ r ∈ pair.2, r.module = pair.1
  once : ∀ pair ∈ s.registrations.toList, (pair.2.map Registration.name).Nodup

theorem mem_logged {s : Session} {r : Registration} :
    r ∈ s.logged ↔ ∃ pair ∈ s.registrations.toList, r ∈ pair.2 := by
  simp only [logged, NameMap.values, List.mem_flatten, List.mem_map]
  constructor
  · rintro ⟨_, ⟨pair, hp, rfl⟩, hr⟩
    exact ⟨pair, hp, hr⟩
  · rintro ⟨pair, hp, hr⟩
    exact ⟨_, ⟨pair, hp, rfl⟩, hr⟩

theorem registrationsFor_subset {s : Session} {name : String} {r : Registration}
    (h : r ∈ s.registrationsFor name) : r ∈ s.logged := by
  obtain ⟨pair, hp, hr⟩ := List.mem_flatMap.1 h
  split at hr
  · exact mem_logged.2 ⟨pair, hp, hr⟩
  · cases hr

private theorem find?_of_nodup {r : Registration} {rs : List Registration}
    (h : (rs.map Registration.name).Nodup) (hr : r ∈ rs) :
    rs.find? (fun other => other.name = r.name) = some r := by
  induction rs with
  | nil => cases hr
  | cons first rest ih =>
    rw [List.map_cons, List.nodup_cons] at h
    rcases List.mem_cons.1 hr with rfl | later
    · rw [List.find?_cons_of_pos (by simp)]
    · have ne : first.name ≠ r.name := fun same => h.1 (same ▸ List.mem_map_of_mem later)
      rw [List.find?_cons_of_neg (by simpa using ne)]
      exact ih h.2 later

/-- What is in the log is what is found for its function. -/
theorem Filed.registered?_of_mem {s : Session} (h : Filed s) {r : Registration} (hr : r ∈ s.logged) :
    s.registered? r.key = some r.specialization := by
  obtain ⟨⟨module, rs⟩, hp, hr⟩ := mem_logged.1 hr
  obtain rfl : r.module = module := h.own _ hp r hr
  have found : rs.find? (fun other => other.name = r.name) = some r := find?_of_nodup (h.once _ hp) hr
  have file : s.registrations.find? r.key.1 = some rs := h.ordered.find?_of_mem hp
  rw [registered?, NameMap.findD, file]
  exact congrArg (Option.map Registration.specialization) found

/-- What is registered for a function is in the log. -/
theorem Filed.mem_of_registered? {s : Session} (h : Filed s) {key : String × String}
    {specialization : Specialization} (hk : s.registered? key = some specialization) :
    ⟨key.1, key.2, specialization⟩ ∈ s.logged := by
  obtain ⟨r, hf, rfl⟩ := Option.map_eq_some_iff.1 hk
  have name := List.find?_some hf
  have hr := List.mem_of_find?_eq_some hf
  rw [NameMap.findD] at hr
  cases found : s.registrations.find? key.1 with
  | none =>
    rw [found] at hr
    cases hr
  | some rs =>
    rw [found] at hr
    have hp := NameMap.mem_of_find? found
    have own := h.own _ hp r hr
    have same : (⟨key.1, key.2, r.specialization⟩ : Registration) = r := by
      cases r
      simp only [decide_eq_true_eq] at name own
      rw [← name, ← own]
    rw [same]
    exact mem_logged.2 ⟨_, hp, hr⟩

/-- The log holds for a function what is registered for it. -/
theorem Filed.held_logged {s : Session} (h : Filed s) (key : String × String)
    (before : Option Specialization) :
    held (fun r => r.key = key) s.logged before = (s.registered? key).or before := by
  by_cases there : ∃ r ∈ s.logged, r.key = key
  · obtain ⟨r, hr, rfl⟩ := there
    have known : ∃ other ∈ s.logged, other.key = r.key := ⟨r, hr, rfl⟩
    rw [held_of_mem known (some r.specialization), h.registered?_of_mem hr, Option.some_or]
    refine held_eq_before fun other ho same => ?_
    rw [← h.registered?_of_mem ho, same, h.registered?_of_mem hr]
  · rw [held_eq_before fun r hr same => absurd ⟨r, hr, same⟩ there]
    cases found : s.registered? key with
    | none => rfl
    | some specialization => exact absurd ⟨_, h.mem_of_registered? found, rfl⟩ there

private theorem find?_putRegistration (r : Registration) (rs : List Registration) (name : String) :
    (putRegistration r rs).find? (fun other => other.name = name) =
      if r.name = name then some r else rs.find? fun other => other.name = name := by
  induction rs with
  | nil => by_cases h : r.name = name <;> simp [putRegistration, h]
  | cons first rest ih =>
    rw [putRegistration]
    by_cases same : first.name = r.name
    · rw [if_pos same]
      by_cases h : r.name = name <;> simp [h, same]
    · rw [if_neg same]
      by_cases h : first.name = name
      · have other : r.name ≠ name := fun e => same (h.trans e.symm)
        simp [h, other]
      · simp [h, ih]

private theorem mem_putRegistration {r other : Registration} {rs : List Registration}
    (h : other ∈ putRegistration r rs) : other = r ∨ other ∈ rs := by
  induction rs with
  | nil => exact .inl (List.mem_singleton.1 h)
  | cons first rest ih =>
    rw [putRegistration] at h
    split_ifs at h
    · exact (List.mem_cons.1 h).imp_right (List.mem_cons_of_mem _)
    · rcases List.mem_cons.1 h with rfl | h
      · exact .inr List.mem_cons_self
      · exact (ih h).imp_right (List.mem_cons_of_mem _)

private theorem nodup_putRegistration (r : Registration) {rs : List Registration}
    (h : (rs.map Registration.name).Nodup) : ((putRegistration r rs).map Registration.name).Nodup := by
  induction rs with
  | nil => exact List.pairwise_singleton _ _
  | cons first rest ih =>
    rw [List.map_cons, List.nodup_cons] at h
    rw [putRegistration]
    split_ifs with same
    · rw [List.map_cons, List.nodup_cons, ← same]
      exact h
    · rw [List.map_cons, List.nodup_cons]
      refine ⟨fun again => ?_, ih h.2⟩
      obtain ⟨other, ho, name⟩ := List.mem_map.1 again
      rcases mem_putRegistration ho with rfl | ho
      · exact same name.symm
      · exact h.1 (name ▸ List.mem_map_of_mem ho)

def withRegistration (s : Session) (r : Registration) : Session :=
  { s with
    registrations :=
      s.registrations.insert r.module (putRegistration r (s.registrations.findD r.module [])) }

theorem registered?_withRegistration (s : Session) (r : Registration) (key : String × String) :
    (s.withRegistration r).registered? key = held (·.key = key) [r] (s.registered? key) := by
  obtain ⟨module, name⟩ := key
  simp only [registered?, withRegistration, NameMap.findD, NameMap.find?_insert, held, List.foldl_cons,
    List.foldl_nil, Registration.key, Prod.mk.injEq]
  by_cases hm : r.module = module
  · subst hm
    simp only [if_true, Option.getD_some, find?_putRegistration, true_and]
    split_ifs <;> rfl
  · simp only [if_neg (Ne.symm hm), hm, false_and, if_false]

theorem Filed.withRegistration {s : Session} (h : Filed s) (r : Registration) :
    Filed (s.withRegistration r) := by
  have before : ∀ other ∈ s.registrations.findD r.module [], other.module = r.module := by
    intro other ho
    rw [NameMap.findD] at ho
    cases found : s.registrations.find? r.module with
    | none =>
      rw [found] at ho
      cases ho
    | some rs =>
      rw [found] at ho
      exact h.own _ (NameMap.mem_of_find? found) other ho
  have once : ((s.registrations.findD r.module []).map Registration.name).Nodup := by
    rw [NameMap.findD]
    cases found : s.registrations.find? r.module with
    | none => exact List.nodup_nil
    | some rs => exact h.once _ (NameMap.mem_of_find? found)
  refine ⟨h.ordered.insert _ _, fun pair hp other ho => ?_, fun pair hp => ?_⟩
  · rcases NameMap.mem_insert hp with rfl | hp
    · rcases mem_putRegistration ho with rfl | ho
      · rfl
      · exact before other ho
    · exact h.own pair hp other ho
  · rcases NameMap.mem_insert hp with rfl | hp
    · exact nodup_putRegistration r once
    · exact h.once pair hp

end Session

end Typeflow
