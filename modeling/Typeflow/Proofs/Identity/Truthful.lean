import Typeflow.Proofs.Alternatives.Key
import Typeflow.Proofs.Dispatch.Fixed

/-! The memo tables tell the truth: what they hold for a constant is a constant, and what they hold for alternatives
or for a function and its instance stands for just these. -/
namespace Typeflow.Session

variable {s t q : Session}

/-- What is kept for constants, alternatives and bound methods has been made, and is what it is kept for. -/
structure Truthful (s : Session) : Prop where
  constants : ∀ c v, s.constants.find? c = some (some v) → v.index < s.values.size ∧ (s.form v).kind = .constant
  aggregates : ∀ members v, s.aggregates.find? (alternativesKey members) = some (some v) →
    v.index < s.values.size ∧ s.form v = .multiple members
  bounds : ∀ function self v, s.boundMethods.find? (function, self) = some (some v) →
    v.index < s.values.size ∧ s.form v = .boundMethod function self

def StaysTruthful (s t : Session) : Prop := Truthful s → Truthful t

namespace StaysTruthful

theorem refl (s : Session) : StaysTruthful s s := id

theorem trans (h : StaysTruthful s t) (g : StaysTruthful t q) : StaysTruthful s q := g ∘ h

/-- What is kept was kept before, or is what it is kept for. -/
theorem of_kept (fixes : Fixes s t)
    (constants : ∀ c v, t.constants.find? c = some (some v) → s.constants.find? c = some (some v) ∨
      v.index < t.values.size ∧ (t.form v).kind = .constant)
    (aggregates : ∀ members v, t.aggregates.find? (alternativesKey members) = some (some v) →
      s.aggregates.find? (alternativesKey members) = some (some v) ∨ v.index < t.values.size ∧ t.form v = .multiple members)
    (bounds : ∀ function self v, t.boundMethods.find? (function, self) = some (some v) →
      s.boundMethods.find? (function, self) = some (some v) ∨
        v.index < t.values.size ∧ t.form v = .boundMethod function self) : StaysTruthful s t := by
  intro truthful
  have shared : ∀ v form, v.index < s.values.size ∧ s.form v = form → form.isShared = true →
      v.index < t.values.size ∧ t.form v = form := by
    rintro v form ⟨there, rfl⟩ own
    exact ⟨Nat.lt_of_lt_of_le there fixes.size, fixes.shared v there own⟩
  refine ⟨fun c v kept => ?_, fun members v kept => ?_, fun function self v kept => ?_⟩
  · rcases constants c v kept with before | new
    · obtain ⟨there, kind⟩ := truthful.constants c v before
      exact ⟨Nat.lt_of_lt_of_le there fixes.size, (fixes.kind v there).trans kind⟩
    · exact new
  · rcases aggregates members v kept with before | new
    · exact shared v _ (truthful.aggregates members v before) rfl
    · exact new
  · rcases bounds function self v kept with before | new
    · exact shared v _ (truthful.bounds function self v before) rfl
    · exact new

/-- Nothing else is kept. -/
theorem of_same (fixes : Fixes s t) (tables : t.memoTables = s.memoTables) : StaysTruthful s t := by
  simp only [memoTables, Prod.mk.injEq] at tables
  obtain ⟨-, constants, aggregates, bounds⟩ := tables
  refine of_kept fixes (fun c v kept => .inl ?_) (fun members v kept => .inl ?_) fun function self v kept => .inl ?_
  · rwa [constants] at kept
  · rwa [aggregates] at kept
  · rwa [bounds] at kept

theorem of_reserves (b : Reserves s t) : StaysTruthful s t :=
  of_kept (.of_values b.values) (fun c v kept => .inl ((b.constants c v).1 kept))
    (fun members v kept => .inl ((b.aggregates (alternativesKey members) v).1 kept))
    fun function self v kept => .inl ((b.bounds (function, self) v).1 kept)

theorem of_change {R : Realm} (c : Change R s t) : StaysTruthful s t := by
  have fixes := Fixes.of_change c
  have form (value : Value) : (s.withValue value).form s.nextValue = value.form :=
    (form_push s value s.nextValue).trans (if_pos rfl)
  have there (value : Value) : s.nextValue.index < (s.withValue value).values.size := by simp [withValue, nextValue]
  cases c with
  | beside b => exact of_reserves b.toReserves
  | makeObject => exact of_kept fixes (fun _ _ => .inl) (fun _ _ => .inl) fun _ _ _ => .inl
  | makeConstant name description cls value =>
    refine of_kept fixes (fun c v kept => ?_) (fun _ _ => .inl) fun _ _ _ => .inl
    refine (Cache.find?_put kept).imp_right fun same => ?_
    cases same
    exact ⟨there _, congrArg Form.kind (form _)⟩
  | makeAggregate name description members =>
    refine of_kept fixes (fun _ _ => .inl) (fun others v kept => ?_) fun _ _ _ => .inl
    rw [Cache.find?_put_eq] at kept
    split at kept
    · next own =>
      cases kept
      rw [alternativesKey_injective (eq_of_beq own)]
      exact .inr ⟨there _, form _⟩
    · exact .inl kept
  | makeBound name description function self =>
    refine of_kept fixes (fun _ _ => .inl) (fun _ _ => .inl) fun f i v kept => ?_
    rw [Cache.find?_put_eq] at kept
    split at kept
    · next own =>
      cases kept
      cases eq_of_beq own
      exact .inr ⟨there _, form _⟩
    · exact .inl kept
  | _ => exact of_same fixes rfl

theorem sustains : Sustains StaysTruthful where
  refl := refl
  trans := trans
  change := of_change
  lookup c := c.through refl trans of_change of_reserves
  names _ _ := of_same (.of_values rfl) rfl
  replace _ _ _ _ := of_same (.setValue rfl) rfl
  wrap _ _ _ _ := of_same (.setValue rfl) rfl
  ref _ _ _ := of_same (.of_values rfl) rfl
  elsewhere other := of_same (.of_values other.values) other.tables

theorem withListed (s : Session) (name path : String) : StaysTruthful s (s.withListed name path) := by
  have tables : (s.withListed name path).memoTables = s.memoTables := by
    unfold Session.withListed
    split <;> rfl
  exact of_same (.of_push (values_withListed s name path)) tables

theorem clearCaches (s : Session) : StaysTruthful s (after clearCaches s) :=
  fun _ => ⟨nofun, nofun, nofun⟩

end StaysTruthful

namespace Truthful

theorem of_touches {L : Licence} {R : Realm} (h : Truthful s) (touches : Touches L R s t) : Truthful t := by
  induction touches with
  | refl => exact h
  | tail _ step ih => exact StaysTruthful.sustains.touch step ih

theorem operation (h : Truthful s) (o : Operation) : Truthful (after o.run s) :=
  StaysTruthful.sustains.operation (fun name path _ => .withListed s name path) (fun _ => .clearCaches)
    (fun _ _ _ _ => .of_same (.of_values rfl) rfl) h

theorem afterAll (h : Truthful s) (ops : List Operation) : Truthful (afterAll ops s) := by
  induction ops generalizing s with
  | nil => exact h
  | cons o rest ih => exact ih (h.operation o)

theorem create {options : Options} {host : Host} {hostRequests : List Request}
    (made : create options host hostRequests = .ok s) : Truthful s := by
  rw [created_eq made]
  exact StaysTruthful.sustains.load _ ⟨nofun, nofun, nofun⟩

end Truthful

/-- No place in a memo table is without its value, and each has the value that it is for. -/
structure Reliable (s : Session) : Prop where
  rest : AtRest s
  truthful : Truthful s

namespace Reliable

theorem of_touches {L : Licence} {R : Realm} (h : Reliable s) (touches : Touches L R s t) : Reliable t :=
  ⟨h.rest.remembers (Remembers.of_all (fun _ _ => Remembers.of_touch) touches), h.truthful.of_touches touches⟩

theorem of_roams {L : Licence} {α : Type} {m : Analysis α} {Q : α → Prop} (h : Reliable s) (roams : Roams L .all m Q) :
    Reliable (after m s) := h.of_touches (roams s (Realm.closed_all s)).1

theorem afterAll (h : Reliable s) (ops : List Operation) : Reliable (Session.afterAll ops s) :=
  ⟨h.rest.afterAll ops, h.truthful.afterAll ops⟩

theorem create {options : Options} {host : Host} {hostRequests : List Request}
    (made : Session.create options host hostRequests = .ok s) : Reliable s := ⟨.create made, .create made⟩

end Reliable

end Typeflow.Session
