import Typeflow.Proofs.Resolution

/-! Actions that come to an end, and how they leave the session. -/
namespace Typeflow.Session

/-- The action comes to an end, and leaves the session like this. -/
def Leaves {α : Type} (m : Analysis α) (s t : Session) : Prop := ∃ a, m s = .ok a t

def Returns {α : Type} (m : Analysis α) (s : Session) : Prop := ∃ t, Leaves m s t

section Returns

variable {α β : Type} {m n : Analysis α} {f : α → Analysis β} {s t r : Session} {a : α}

theorem Leaves.unique (h : Leaves m s t) (g : Leaves m s r) : t = r := by
  obtain ⟨a, first⟩ := h
  obtain ⟨b, second⟩ := g
  rw [first] at second
  cases second
  rfl

theorem ok_of_deepens (h : Deepens m n) (run : m s = .ok a t) : n s = .ok a t :=
  (h s fun r endless => by rw [run] at endless; cases endless).trans run

theorem Leaves.deepen (h : Leaves m s t) (deeper : Deepens m n) : Leaves n s t := by
  obtain ⟨a, run⟩ := h
  exact ⟨a, ok_of_deepens deeper run⟩

theorem leaves_bind_iff : Leaves (m >>= f) s r ↔ ∃ a t, m s = .ok a t ∧ Leaves (f a) t r := by
  constructor
  · rintro ⟨b, run⟩
    obtain ⟨a, t, first, rest⟩ := bind_eq_ok run
    exact ⟨a, t, first, b, rest⟩
  · rintro ⟨a, t, first, b, rest⟩
    exact ⟨b, (bind_of_ok first).trans rest⟩

theorem returns_bind_iff : Returns (m >>= f) s ↔ ∃ a t, m s = .ok a t ∧ Returns (f a) t := by
  simp only [Returns, leaves_bind_iff]
  constructor
  · rintro ⟨r, a, t, first, rest⟩
    exact ⟨a, t, first, r, rest⟩
  · rintro ⟨a, t, first, r, rest⟩
    exact ⟨r, a, t, first, rest⟩

theorem returns_bind_of_ok (first : m s = .ok a t) : Returns (m >>= f) s ↔ Returns (f a) t := by
  simp only [Returns, Leaves, bind_of_ok first]

theorem returns_read {g : Session → Analysis β} : Returns (get >>= g) s ↔ Returns (g s) s := Iff.rfl

theorem returns_of_total (total : Total m) (s : Session) : Returns m s := by
  obtain ⟨a, run⟩ := total s
  exact ⟨_, a, run⟩

/-- What always succeeds afterwards makes no difference. -/
theorem returns_bind_total (total : ∀ a, Total (f a)) : Returns (m >>= f) s ↔ Returns m s := by
  rw [returns_bind_iff]
  refine ⟨fun ⟨a, t, run, _⟩ => ⟨t, a, run⟩, fun ⟨t, a, run⟩ => ⟨a, t, run, returns_of_total (total a) t⟩⟩

end Returns

section Join

variable {α : Type} {f : α → Analysis ValueSet} {s r : Session}

private theorem leaves_fold_cons (acc : ValueSet) (a : α) (rest : List α) :
    Leaves ((a :: rest).foldlM (fun acc item => do return acc.join (← f item)) acc : Analysis ValueSet) s r ↔
      ∃ t values, f a s = .ok values t ∧
        Leaves (rest.foldlM (fun acc item => do return acc.join (← f item)) (acc.join values) : Analysis ValueSet) t r := by
  rw [List.foldlM_cons, leaves_bind_iff]
  constructor
  · rintro ⟨grown, t, run, left⟩
    obtain ⟨values, q, first, ends⟩ := bind_eq_ok run
    cases ends
    exact ⟨t, values, first, left⟩
  · rintro ⟨t, values, first, left⟩
    exact ⟨acc.join values, t, bind_of_ok first, left⟩

/-- What was found before does not matter to where a union ends. -/
private theorem leaves_fold_iff (items : List α) (acc other : ValueSet) :
    Leaves (items.foldlM (fun acc item => do return acc.join (← f item)) acc : Analysis ValueSet) s r ↔
      Leaves (items.foldlM (fun acc item => do return acc.join (← f item)) other : Analysis ValueSet) s r := by
  induction items generalizing s acc other with
  | nil => exact ⟨fun ⟨_, run⟩ => ⟨other, by cases run; rfl⟩, fun ⟨_, run⟩ => ⟨acc, by cases run; rfl⟩⟩
  | cons a rest ih =>
    rw [leaves_fold_cons, leaves_fold_cons]
    exact exists_congr fun t => exists_congr fun values => and_congr_right fun _ => ih _ _

theorem leaves_joinM_nil : Leaves (ValueSet.joinM [] f) s r ↔ s = r :=
  ⟨fun ⟨_, run⟩ => by cases run; rfl, fun same => ⟨.empty, by rw [same]; rfl⟩⟩

theorem leaves_joinM_cons {a : α} {rest : List α} :
    Leaves (ValueSet.joinM (a :: rest) f) s r ↔ ∃ t, Leaves (f a) s t ∧ Leaves (ValueSet.joinM rest f) t r := by
  rw [ValueSet.joinM, leaves_fold_cons]
  constructor
  · rintro ⟨t, values, first, left⟩
    exact ⟨t, ⟨values, first⟩, (leaves_fold_iff rest _ _).1 left⟩
  · rintro ⟨t, ⟨values, first⟩, left⟩
    exact ⟨t, values, first, (leaves_fold_iff rest _ _).1 left⟩

theorem leaves_joinM_append {before rest : List α} :
    Leaves (ValueSet.joinM (before ++ rest) f) s r ↔
      ∃ t, Leaves (ValueSet.joinM before f) s t ∧ Leaves (ValueSet.joinM rest f) t r := by
  induction before generalizing s with
  | nil => simp [leaves_joinM_nil]
  | cons a before ih =>
    simp only [List.cons_append, leaves_joinM_cons, ih]
    constructor
    · rintro ⟨t, first, q, left, right⟩
      exact ⟨q, ⟨t, first, left⟩, right⟩
    · rintro ⟨q, ⟨t, first, left⟩, right⟩
      exact ⟨t, first, q, left, right⟩

theorem returns_joinM_nil : Returns (ValueSet.joinM [] f) s := ⟨s, leaves_joinM_nil.2 rfl⟩

theorem returns_joinM_single {a : α} : Returns (ValueSet.joinM [a] f) s ↔ Returns (f a) s := by
  simp [Returns, leaves_joinM_cons, leaves_joinM_nil]

end Join

end Typeflow.Session
