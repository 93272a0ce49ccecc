import Mathlib.Data.Finset.Card
import Mathlib.Order.Interval.Finset.Nat
import Mathlib.Tactic.Ring
import Typeflow.Proofs.Lookup.Looks

/-! The graph of values that lookups of a member follow. Only classes are marked while they are searched, so a
lookup may go round in circles that no class is on. -/
namespace Typeflow

/-- The type whose instance stands for a value when its members are looked up. -/
def Form.exemplified : Form → Option ValueId
  | .constant type _ | .sequence type _ | .iterator type _ => type
  | _ => none

namespace Session

/-- A lookup at the first value goes on to the second one, whatever the name is. -/
inductive Passes (s : Session) (v w : ValueId) : Prop
  | builtinInstance (h : s.form v = .builtinInstance w)
  | userInstance {attributes : NameMap VarId} (h : s.form v = .userInstance w attributes)
  | multiple {members : List ValueId} (h : s.form v = .multiple members) (mem : w ∈ members)
  | wrapper {x : Wrapper} (h : s.form v = .wrapper x) (wraps : x.wrapped = some w)
  /-- The bases are searched without the class. -/
  | super {cls : ValueId} {instances : ValueSet} {c : UserClass} (h : s.form v = .super cls instances)
      (of : s.form cls = .userClass c) (mem : w ∈ (s.types c.bases).items)
  | exemplar {cls : ValueId} {type : ObjectId} (h : (s.form v).exemplified = some cls)
      (of : s.form cls = .builtinClass type) (kept : s.exemplar? cls = some w)

/-- A lookup of the name at the first value goes on to the second one. A class that is not being searched hands
it to its bases if it has nothing under the name. -/
inductive Seeks (s : Session) (name : String) (v w : ValueId) : Prop
  | passes (h : s.Passes v w)
  | inherits {c : UserClass} (h : s.form v = .userClass c) (idle : c.resolving = false)
      (lacks : s.Lacks c.scope name) (mem : w ∈ (s.types c.bases).items)

/-- The value leads back to itself past all classes of the program. -/
def Circular (s : Session) (v : ValueId) : Prop := Relation.TransGen s.Passes v v

/-- No value that a lookup of the name comes across leads back to itself past all classes. -/
def Unwinds (s : Session) (name : String) (v : ValueId) : Prop :=
  ∀ w, Relation.ReflTransGen (s.Seeks name) v w → ¬ s.Circular w

/-- The values that a lookup of the name comes across are there. -/
def Grounded (s : Session) (name : String) (v : ValueId) : Prop :=
  ∀ w, Relation.ReflTransGen (s.Seeks name) v w → w.index < s.values.size

variable {s t : Session} {name : String} {v w : ValueId}

theorem Unwinds.next (h : s.Unwinds name v) (step : s.Seeks name v w) : s.Unwinds name w :=
  fun x path => h x (.head step path)

theorem Grounded.next (h : s.Grounded name v) (step : s.Seeks name v w) : s.Grounded name w :=
  fun x path => h x (.head step path)

/-- Nothing is passed on by a class. -/
theorem Passes.kind (h : s.Passes v w) : (s.form v).kind ≠ .userClass := by
  intro kind
  cases h with
  | exemplar h =>
    cases hf : s.form v with
    | userClass c =>
      rw [hf] at h
      cases h
    | _ =>
      rw [hf] at kind
      cases kind
  | _ h =>
    rw [h] at kind
    cases kind

section Decide

variable (s name v w)

/-- What a lookup at the value goes on to, whatever the name is. -/
def passed : List ValueId :=
  match s.form v with
  | .builtinInstance w | .userInstance w _ => [w]
  | .multiple members => members
  | .wrapper x => x.wrapped.toList
  | .super cls _ =>
    match s.form cls with
    | .userClass c => (s.types c.bases).items
    | _ => []
  | .constant (some cls) _ | .sequence (some cls) _ | .iterator (some cls) _ =>
    match s.form cls with
    | .builtinClass _ => (s.exemplar? cls).toList
    | _ => []
  | _ => []

variable {s name v w}

theorem passes_iff : s.Passes v w ↔ w ∈ s.passed v := by
  constructor
  · intro h
    cases h with
    | builtinInstance h | userInstance h => simp [passed, h]
    | multiple h mem => simpa [passed, h] using mem
    | wrapper h wraps => simp [passed, h, wraps]
    | super h of mem => simpa [passed, h, of] using mem
    | exemplar h of kept =>
      cases hf : s.form v with
      | constant | sequence | iterator =>
        rw [hf] at h
        cases h
        simp [passed, hf, of, kept]
      | _ =>
        rw [hf] at h
        cases h
  · intro mem
    unfold passed at mem
    split at mem
    · next h => exact List.mem_singleton.1 mem ▸ .builtinInstance h
    · next h => exact List.mem_singleton.1 mem ▸ .userInstance h
    · next h => exact .multiple h mem
    · next h => exact .wrapper h (Option.mem_toList.1 mem)
    · next h =>
      split at mem
      · next of => exact .super h of mem
      · cases mem
    all_goals try cases mem
    all_goals
      next h =>
      split at mem
      · next of => exact .exemplar (by rw [h]; rfl) of (Option.mem_toList.1 mem)
      · cases mem

instance : Decidable (s.Passes v w) := decidable_of_iff _ passes_iff.symm

instance (c : ScopeId) : Decidable (s.Lacks c name) :=
  decidable_of_iff (∀ x ∈ s.findName? c name, (s.types x).isEmpty = true) .rfl

def sought (s : Session) (name : String) (v : ValueId) : List ValueId :=
  match s.form v with
  | .userClass c => if c.resolving = false ∧ s.Lacks c.scope name then (s.types c.bases).items else []
  | _ => s.passed v

theorem seeks_iff : s.Seeks name v w ↔ w ∈ s.sought name v := by
  cases hv : s.form v with
  | userClass c =>
    simp only [sought, hv, List.mem_ite_nil_right]
    constructor
    · intro step
      cases step with
      | passes step => exact absurd (by rw [hv]; rfl) step.kind
      | inherits h idle lacks mem =>
        cases hv.symm.trans h
        exact ⟨⟨idle, lacks⟩, mem⟩
    · exact fun known => .inherits hv known.1.1 known.1.2 known.2
  | _ =>
    simp only [sought, hv, ← passes_iff]
    constructor
    · intro step
      cases step with
      | passes step => exact step
      | inherits h =>
        rw [hv] at h
        cases h
    · exact .passes

instance : Decidable (s.Seeks name v w) := decidable_of_iff _ seeks_iff.symm

end Decide

section Budget

open Classical

/-- How many classes that are not among the marked ones a lookup at the value may still come across. -/
noncomputable def unsearched (s : Session) (name : String) (marked : Finset ValueId) (v : ValueId) : Nat :=
  ((Finset.range s.values.size).filter fun i =>
    (s.form ⟨i⟩).kind = .userClass ∧ ⟨i⟩ ∉ marked ∧ Relation.ReflTransGen (s.Seeks name) v ⟨i⟩).card

/-- How many values a lookup comes across before it is at a class. -/
noncomputable def onward (s : Session) (v : ValueId) : Nat :=
  ((Finset.range s.values.size).filter fun i => Relation.ReflTransGen s.Passes v ⟨i⟩).card

private theorem unsearched_le (s : Session) (name : String) (marked : Finset ValueId) (v : ValueId) :
    s.unsearched name marked v ≤ s.values.size := by
  have bound := Finset.card_filter_le (Finset.range s.values.size) fun i =>
    (s.form ⟨i⟩).kind = .userClass ∧ ⟨i⟩ ∉ marked ∧ Relation.ReflTransGen (s.Seeks name) v ⟨i⟩
  rwa [Finset.card_range] at bound

private theorem onward_le (s : Session) (v : ValueId) : s.onward v ≤ s.values.size := by
  have bound := Finset.card_filter_le (Finset.range s.values.size) fun i => Relation.ReflTransGen s.Passes v ⟨i⟩
  rwa [Finset.card_range] at bound

theorem onward_pos (there : v.index < s.values.size) : 0 < s.onward v :=
  Finset.card_pos.2 ⟨v.index, by rw [Finset.mem_filter, Finset.mem_range]; exact ⟨there, .refl⟩⟩

private theorem unsearched_le_of_seeks (step : s.Seeks name v w) (marked : Finset ValueId) :
    s.unsearched name marked w ≤ s.unsearched name marked v := by
  refine Finset.card_le_card fun i hi => ?_
  rw [Finset.mem_filter] at hi ⊢
  exact ⟨hi.1, hi.2.1, hi.2.2.1, .head step hi.2.2.2⟩

/-- A class that is searched is marked. -/
theorem unsearched_lt (there : v.index < s.values.size) (cls : (s.form v).kind = .userClass) {marked : Finset ValueId}
    (fresh : v ∉ marked) (step : s.Seeks name v w) :
    s.unsearched name (insert v marked) w < s.unsearched name marked v := by
  refine Finset.card_lt_card ((Finset.ssubset_iff_of_subset ?_).2 ⟨v.index, ?_, ?_⟩)
  · intro i hi
    rw [Finset.mem_filter] at hi ⊢
    exact ⟨hi.1, hi.2.1, fun old => hi.2.2.1 (Finset.mem_insert_of_mem old), .head step hi.2.2.2⟩
  · rw [Finset.mem_filter, Finset.mem_range]
    exact ⟨there, cls, fresh, .refl⟩
  · rw [Finset.mem_filter]
    exact fun hi => hi.2.2.1 (Finset.mem_insert_self v marked)

/-- Each step leaves a value behind, unless it comes back. -/
theorem onward_lt (there : v.index < s.values.size) (clear : ¬ s.Circular v) (step : s.Passes v w) :
    s.onward w < s.onward v := by
  refine Finset.card_lt_card ((Finset.ssubset_iff_of_subset ?_).2 ⟨v.index, ?_, ?_⟩)
  · intro i hi
    rw [Finset.mem_filter] at hi ⊢
    exact ⟨hi.1, .head step hi.2⟩
  · rw [Finset.mem_filter, Finset.mem_range]
    exact ⟨there, .refl⟩
  · rw [Finset.mem_filter]
    exact fun back => clear (.head' step back.2)

/-- How deep a lookup at the value goes while some classes are marked. The instance of a builtin class, which may
be made on the way, and the class come on top. -/
noncomputable def searchDepth (s : Session) (name : String) (marked : Finset ValueId) (v : ValueId) : Nat :=
  s.unsearched name marked v * (s.values.size + 3) + s.onward v + 2

theorem searchDepth_le (s : Session) (name : String) (marked : Finset ValueId) (v : ValueId) :
    s.searchDepth name marked v ≤ (s.values.size + 2) * (s.values.size + 2) := by
  have classes := Nat.mul_le_mul_right (s.values.size + 3) (s.unsearched_le name marked v)
  have others := s.onward_le v
  have square : (s.values.size + 2) * (s.values.size + 2) = s.values.size * (s.values.size + 3) + s.values.size + 4 := by
    ring
  unfold searchDepth
  omega

theorem searchDepth_lt_of_passes (there : v.index < s.values.size) (clear : ¬ s.Circular v) (step : s.Passes v w)
    (marked : Finset ValueId) : s.searchDepth name marked w < s.searchDepth name marked v := by
  have fewer : s.unsearched name marked w ≤ s.unsearched name marked v := unsearched_le_of_seeks (.passes step) marked
  have classes := Nat.mul_le_mul_right (s.values.size + 3) fewer
  have others := onward_lt there clear step
  unfold searchDepth
  omega

theorem searchDepth_lt_of_class (there : v.index < s.values.size) (cls : (s.form v).kind = .userClass)
    {marked : Finset ValueId} (fresh : v ∉ marked) (step : s.Seeks name v w) :
    s.searchDepth name (insert v marked) w < s.searchDepth name marked v := by
  have classes := Nat.mul_le_mul_right (s.values.size + 3) (Nat.succ_le_of_lt (unsearched_lt there cls fresh step))
  have others := s.onward_le w
  unfold searchDepth
  rw [Nat.succ_mul] at classes
  omega

end Budget

/-- While lookups that began in the first session go on, some classes are marked. -/
structure Amid (s : Session) (marked : Finset ValueId) (t : Session) : Prop extends Links s t where
  mark : ∀ v, (t.form v).marked = ((s.form v).marked || decide (v ∈ marked))

namespace Amid

variable {r : Session} {marked : Finset ValueId}

theorem begin (s : Session) : Amid s ∅ s := ⟨.refl s, fun v => by simp⟩

/-- Lookups in between leave everything as it should be. -/
theorem peeks (h : Amid s marked t) (g : Peeks t r) : Amid s marked r :=
  ⟨h.toLinks.trans g.toLinks, fun v => (g.mark v).trans (h.mark v)⟩

/-- One more class is searched. -/
theorem search (h : Amid s marked t) {cls : ValueId} (kind : (s.form cls).kind = .userClass) :
    Amid s (insert cls marked) (after (setResolving cls true) t) := by
  refine ⟨h.toLinks.trans (links_setResolving cls true t), fun v => ?_⟩
  have there : cls.index < s.values.size := index_lt_of_form fun same => by rw [same] at kind; cases kind
  rw [marked_setResolving]
  by_cases own : v = cls
  · rw [if_pos ⟨own, (h.kind there).trans kind⟩]
    simp [own]
  · rw [if_neg fun same => own same.1, h.mark]
    simp [own]

end Amid

end Session

end Typeflow
