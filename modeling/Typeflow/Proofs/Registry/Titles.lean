import Typeflow.Proofs.Registry.Indexes
import Typeflow.Proofs.Registry.Manage

/-! A module of the project that a name stands for is called by that name: values keep the names they were made
with, and only the adding of a module binds a name to a new one. -/
namespace Typeflow.Session

variable {s t r : Session} {name path : String} {m : ValueId} {added : Array Addition}

/-- Values keep their names. -/
structure Titles (s t : Session) : Prop where
  size : s.values.size ≤ t.values.size
  name : ∀ v, v.index < s.values.size → (t.value v).name = (s.value v).name

namespace Titles

theorem of_values (same : t.values = s.values) : Titles s t :=
  ⟨Nat.le_of_eq (congrArg Array.size same).symm, fun v _ => by rw [value, value, same]⟩

theorem refl (s : Session) : Titles s s := of_values rfl

theorem trans (h : Titles s t) (g : Titles t r) : Titles s r :=
  ⟨Nat.le_trans h.size g.size, fun v hv =>
    (g.name v (Nat.lt_of_lt_of_le hv h.size)).trans (h.name v hv)⟩

theorem of_push {new : Value} (pushed : t.values = s.values.push new) : Titles s t where
  size := by simp [pushed]
  name v hv := by rw [value, pushed, getD_push, if_neg (Nat.ne_of_lt hv), value]

theorem setValue {v : ValueId} {value : Value} (same : value.name = (s.value v).name) :
    Titles s (s.setValue v value) where
  size := by simp [Session.setValue]
  name w _ := by
    rw [value_setValue]
    split
    · next own => rw [own.1, same]
    · rfl

theorem of_change {R : Realm} (c : Change R s t) : Titles s t := by
  cases c with
  | beside b => exact of_values b.values
  | make | makeObject | makeConstant | makeAggregate | makeBound => exact of_push rfl
  | setForm | keep => exact setValue rfl
  | makeInstance cls title description type form of there free h =>
    have pushed : Titles s (s.withValue ⟨title, description, type, form, {}, []⟩) := of_push rfl
    exact pushed.trans (setValue (pushed.name cls there).symm)
  | _ => exact of_values rfl

theorem sustains : Sustains Titles where
  refl := refl
  trans := trans
  change := of_change
  lookup h := h.through refl trans of_change fun b => of_values b.values
  names _ _ := of_values rfl
  replace _ _ _ _ := setValue rfl
  wrap _ _ _ _ := setValue rfl
  ref _ _ _ := of_values rfl
  elsewhere other := of_values other.values

theorem withListed (s : Session) (name path : String) : Titles s (s.withListed name path) :=
  of_push (values_withListed s name path)

theorem operation (o : Operation) (s : Session) : Titles s (after o.run s) :=
  sustains.operation (fun name path _ => withListed s name path) (fun _ _ => of_values rfl) fun _ _ _ _ => of_values rfl

end Titles

/-- A module that is added gets the name it is added under. -/
theorem name_addModule (name path : String) (s : Session) :
    ((after (addModule name path) s).value ⟨s.values.size⟩).name = name := by
  let new : ValueId := ⟨s.values.size⟩
  have there : new.index < (s.withListed name path).values.size := by
    rw [size_withListed]
    exact Nat.lt_succ_self _
  rw [(Titles.sustains.bindListed name path s).name new there, value, values_withListed, withEntry, getD_push,
    if_pos rfl]

/-- A name that stands for a module of the project did so before unless the module was added just now. -/
theorem projectName_operation (h : Indexed added s) (o : Operation) (bound : (after o.run s).ProjectName name m) :
    s.ProjectName name m ∨ ∃ path, o = .addModule name path ∧ m = ⟨s.values.size⟩ := by
  have steady : ∀ {q}, Steady s q → q.ProjectName name m → s.ProjectName name m := fun g =>
    (projectName_of_same h.celled g.toSameCells).1
  have evaluation : o.evaluates → s.ProjectName name m := fun g => steady (.of_evaluates g s) bound
  cases o with
  | addModule title path =>
    have listed := h.celled.same (sameCells_withListed s title path)
    rw [show after (Operation.addModule title path).run s = after (addModule title path) s from after_ignore _ s] at bound
    rcases addModule_cases h.celled title path with ⟨-, kept⟩ | ⟨-, q, binds, kept⟩
    · rw [projectName_of_same listed kept.toSameCells, projectName_of_same h.celled (sameCells_withListed s title path)]
        at bound
      exact .inl bound
    · have kind : ((s.withListed title path).form ⟨s.values.size⟩).kind = .module := by
        rw [form_withListed, if_pos rfl]
        rfl
      have there : s.values.size < (s.withListed title path).values.size := by
        rw [size_withListed]
        exact Nat.lt_succ_self _
      have celled : Celled q := (Turnover.of_binds listed kind there binds).celled
      rw [projectName_of_same celled kept.toSameCells, projectName_of_binds listed binds rfl kind] at bound
      split at bound
      · next same =>
        subst same
        exact .inr ⟨path, rfl, bound⟩
      · rw [projectName_of_same h.celled (sameCells_withListed s title path)] at bound
        exact .inl bound
  | removeModule e =>
    cases e with
    | none => exact .inl bound
    | some e =>
      rcases removeModule_cases e s with ⟨-, run⟩ | ⟨-, kept⟩
      · rw [show after (Operation.removeModule (some e)).run s = s from after_of_ok run] at bound
        exact .inl bound
      · have celled : Celled (s.unlisted e) := (Turnover.unlisted h.celled e).celled
        exact .inl ((h.name_unlisted e _ _).1 ((projectName_of_same celled kept.toSameCells).1 bound)).1
  | reload =>
    have resets := resets_resetModules h.celled
    exact .inl ((projectName_of_resets resets).1 ((projectName_of_same resets.celled (steady_reload s).toSameCells).1 bound))
  | specialize request => exact .inl (steady (.of_within (Steady.refreshes.fulfil request) s) bound)
  | installFor name => exact .inl (steady (.of_within (Steady.refreshes.installFor name) s) bound)
  | installEvery => exact .inl (steady (.of_within Steady.refreshes.installEvery s) bound)
  | _ => exact .inl (evaluation trivial)

/-- What a name of the project stands for is called by that name. -/
def Titled (s : Session) : Prop := ∀ name m, s.ProjectName name m → (s.value m).name = name

theorem Titled.operation (h : Indexed added s) (titled : s.Titled) (o : Operation) : (after o.run s).Titled := by
  intro name m bound
  rcases projectName_operation h o bound with before | ⟨path, rfl, rfl⟩
  · obtain ⟨r, -, holds⟩ := before.1
    exact ((Titles.operation o s).name m (h.celled.there r m holds)).trans (titled name m before)
  · rw [show after (Operation.addModule name path).run s = after (addModule name path) s from after_ignore _ s]
    exact name_addModule name path s

/-- In every history, what a name of the project stands for is called by that name. -/
theorem titled_afterAll {options : Options} {host : Host} {hostRequests : List Request}
    (made : create options host hostRequests = .ok s) (ops : List Operation) : (afterAll ops s).Titled := by
  have loop : ∀ (ops : List Operation) (added : Array Addition) (s : Session), Indexed added s → s.Titled →
      (afterAll ops s).Titled := by
    intro ops
    induction ops with
    | nil => exact fun _ _ _ titled => titled
    | cons o rest ih => exact fun _ _ h titled => ih _ _ (h.operation o) (titled.operation h o)
  have start := indexed_create made
  refine loop ops _ _ start fun name m bound => ?_
  obtain ⟨-, e, claim, -⟩ := (start.names name m).1 bound
  exact absurd claim.index_lt (Nat.not_lt_zero _)

end Typeflow.Session
