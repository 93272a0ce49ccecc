import Typeflow.Proofs.History

/-! The modules that a history adds, and indexes that lead from each key to the module that was added
last under it, until it is removed. -/
namespace Typeflow

/-- What is said about a module when it is added, and whether it was removed since. -/
structure Addition where
  name : String
  path : String
  removed : Bool := false
  deriving DecidableEq, Repr

def Entry.addition (entry : Entry) : Addition := ⟨entry.name, entry.path, entry.removed⟩

namespace Session

/-- What an operation changes about the modules that were added. -/
def Operation.record : Operation → Array Addition → Array Addition
  | addModule name path, added => added.push { name, path }
  | removeModule (some e), added => added.modify e.index fun a => { a with removed := true }
  | _, added => added

/-- The modules that are added in a history, in the order of their numbers. -/
def additions (ops : List Operation) : Array Addition := ops.foldl (fun added o => o.record added) #[]

/-- The module was added last under the key and is not removed. -/
structure Claims (added : Array Addition) (key : Addition → String) (k : String) (e : EntryId) : Prop where
  there : ∃ a, added[e.index]? = some a ∧ key a = k ∧ a.removed = false
  last : ∀ j a, e.index < j → added[j]? = some a → key a ≠ k

/-- From each key other than the empty one, an index leads to the module that claims it. -/
def Follows (added : Array Addition) (module : EntryId → ValueId) (key : Addition → String)
    (bound : String → ValueId → Prop) : Prop :=
  ∀ k m, bound k m ↔ k ≠ "" ∧ ∃ e, Claims added key k e ∧ m = module e

variable {added : Array Addition} {key : Addition → String} {k : String} {e : EntryId}

theorem Claims.index_lt (h : Claims added key k e) : e.index < added.size := by
  obtain ⟨a, ha, -⟩ := h.there
  exact (Array.getElem?_eq_some_iff.1 ha).1

/-- A new module takes its key over from all others. -/
theorem claims_push (a : Addition) (new : a.removed = false) :
    Claims (added.push a) key k e ↔
      e.index = added.size ∧ key a = k ∨ Claims added key k e ∧ key a ≠ k := by
  constructor
  · intro h
    obtain ⟨b, hb, same, here⟩ := h.there
    rw [Array.getElem?_push] at hb
    split at hb
    · next at_end =>
      cases hb
      exact .inl ⟨at_end, same⟩
    · next before =>
      have inside : e.index < added.size := (Array.getElem?_eq_some_iff.1 hb).1
      have later : ∀ j c, e.index < j → added[j]? = some c → key c ≠ k := by
        intro j c hj hc
        have wide : j < added.size := (Array.getElem?_eq_some_iff.1 hc).1
        apply h.last j c hj
        rw [Array.getElem?_push, if_neg (Nat.ne_of_lt wide), hc]
      have end_ : key a ≠ k := by
        apply h.last added.size a inside
        simp
      exact .inr ⟨⟨⟨b, hb, same, here⟩, later⟩, end_⟩
  · rintro (⟨at_end, same⟩ | ⟨h, other⟩)
    · constructor
      · exact ⟨a, by simp [at_end], same, new⟩
      · intro j c hj hc
        have wide : j < (added.push a).size := (Array.getElem?_eq_some_iff.1 hc).1
        simp at wide
        omega
    · obtain ⟨b, hb, same, here⟩ := h.there
      have inside := h.index_lt
      constructor
      · refine ⟨b, ?_, same, here⟩
        rw [Array.getElem?_push, if_neg (Nat.ne_of_lt inside), hb]
      · intro j c hj hc
        rw [Array.getElem?_push] at hc
        split at hc
        · cases hc
          exact other
        · exact h.last j c hj hc

/-- A module that is removed claims nothing, and nobody claims what it claimed. -/
theorem claims_modify (kept : ∀ a : Addition, key { a with removed := true } = key a) (i : Nat) :
    Claims (added.modify i fun a => { a with removed := true }) key k e ↔
      Claims added key k e ∧ e.index ≠ i := by
  have look : ∀ j b, (added.modify i fun a => { a with removed := true })[j]? = some b ↔
      ∃ a, added[j]? = some a ∧ b = if j = i then { a with removed := true } else a := by
    intro j b
    rw [Array.getElem?_modify]
    by_cases same : i = j
    · subst same
      cases added[i]? <;> simp [eq_comm]
    · have apart : ¬ j = i := fun eq => same eq.symm
      simp [same, apart]
  have keys : ∀ j a, key (if j = i then { a with removed := true } else a) = key a := by
    intro j a
    split
    · exact kept a
    · rfl
  constructor
  · intro h
    obtain ⟨b, hb, same, here⟩ := h.there
    obtain ⟨a, ha, rfl⟩ := (look _ b).1 hb
    have other : e.index ≠ i := by
      intro at_
      rw [if_pos at_] at here
      cases here
    rw [keys] at same
    rw [if_neg other] at here
    refine ⟨⟨⟨a, ha, same, here⟩, fun j c hj hc => ?_⟩, other⟩
    rw [← keys j c]
    exact h.last j _ hj ((look j _).2 ⟨c, hc, rfl⟩)
  · rintro ⟨h, other⟩
    obtain ⟨a, ha, same, here⟩ := h.there
    constructor
    · exact ⟨a, (look _ a).2 ⟨a, ha, (if_neg other).symm⟩, same, here⟩
    · intro j b hj hb
      obtain ⟨c, hc, rfl⟩ := (look j b).1 hb
      rw [keys]
      exact h.last j c hj hc

namespace Follows

variable {module moved : EntryId → ValueId} {bound now : String → ValueId → Prop}

theorem push (h : Follows added module key bound) (a : Addition) (new : a.removed = false)
    (same : ∀ e : EntryId, e.index < added.size → moved e = module e)
    (look : ∀ k m, now k m ↔
      if k = key a ∧ k ≠ "" then m = moved ⟨added.size⟩ else bound k m) :
    Follows (added.push a) moved key now := by
  intro k m
  rw [look]
  by_cases taken : k = key a ∧ k ≠ ""
  · rw [if_pos taken]
    constructor
    · intro hm
      exact ⟨taken.2, ⟨added.size⟩, (claims_push a new).2 (.inl ⟨rfl, taken.1.symm⟩), hm⟩
    · rintro ⟨-, e, he, hm⟩
      rcases (claims_push a new).1 he with ⟨at_end, -⟩ | ⟨-, other⟩
      · have last : e = ⟨added.size⟩ := EntryId.index_inj.1 at_end
        rw [hm, last]
      · exact absurd taken.1.symm other
  · rw [if_neg taken, h]
    refine and_congr_right fun named => exists_congr fun e => ?_
    have other : key a ≠ k := fun eq => taken ⟨eq.symm, named⟩
    rw [claims_push a new]
    constructor
    · rintro ⟨he, hm⟩
      exact ⟨.inr ⟨he, other⟩, by rw [same e he.index_lt, hm]⟩
    · rintro ⟨⟨-, eq⟩ | ⟨he, -⟩, hm⟩
      · exact absurd eq other
      · exact ⟨he, by rw [hm, same e he.index_lt]⟩

theorem remove (h : Follows added module key bound)
    (kept : ∀ a : Addition, key { a with removed := true } = key a) {e : EntryId} {a : Addition}
    (there : added[e.index]? = some a)
    (own : ∀ f : EntryId, f.index < added.size → module f = module e → f = e)
    (look : ∀ k m, now k m ↔ bound k m ∧ ¬ (k = key a ∧ m = module e)) :
    Follows (added.modify e.index fun a => { a with removed := true }) module key now := by
  intro k m
  rw [look, h]
  constructor
  · rintro ⟨⟨named, f, hf, hm⟩, other⟩
    refine ⟨named, f, (claims_modify kept e.index).2 ⟨hf, fun same => other ?_⟩, hm⟩
    obtain rfl : f = e := EntryId.index_inj.1 same
    obtain ⟨b, hb, same, -⟩ := hf.there
    obtain rfl : a = b := Option.some.inj (there.symm.trans hb)
    exact ⟨same.symm, hm⟩
  · rintro ⟨named, f, hf, hm⟩
    obtain ⟨hf, other⟩ := (claims_modify kept e.index).1 hf
    refine ⟨⟨named, f, hf, hm⟩, fun both => other ?_⟩
    rw [own f hf.index_lt (hm.symm.trans both.2)]

end Follows

end Session

end Typeflow
