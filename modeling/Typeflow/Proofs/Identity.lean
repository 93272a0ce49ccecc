import Typeflow.Proofs.Generation.Reload
import Typeflow.Proofs.Identity.Repeat

/-! One value for each object of the host and for each constant. -/
namespace Typeflow.Session

variable {α : Type} {s t : Session} {value : Constant}

/-- A constant that does not equal itself is not found, not even when it is kept. -/
theorem missing_of_odd (odd : (value == value) = false) (c : Cache Constant ValueId) :
    c.find? value = none := by
  refine List.lookup_eq_none_iff.2 fun entry _ => ?_
  have differs : (value == entry.1) = false := by
    by_contra same
    rw [Bool.not_eq_false] at same
    rw [BEq.trans same (BEq.symm same)] at odd
    cases odd
  rw [bne, differs]
  rfl

/-- A constant that is not kept gets a value that is made then. -/
theorem constantValue_new (missing : s.constants.find? value = none) {found : Found}
    (ends : constantValue value s = .ok found t) :
    ∃ v, found = some v ∧ s.values.size ≤ v.index ∧ v.index < t.values.size := by
  let counted := after (count "cache_misses" 1) (constantField.write (s.constants.reserve value) s)
  let type := counted.host.typeFor? (value.typeId counted.isV3)
  obtain ⟨cls, r, name, known, -, made⟩ := Recalls.newConstant_run value type counted
  have before : Remembers counted (after (classOf? type) counted) :=
    .of_proceeds (L := noLicence) (Roams.classOf? (Realm.closed_all _) fun _ typed => .of_id typed)
  rw [after_of_ok known] at before
  have run : constantValue value s = _ := CacheField.recall_of_make missing made
  rw [run] at ends
  cases ends
  refine ⟨r.nextValue, rfl, before.size, ?_⟩
  simp [constantField, withValue, nextValue]

/-- Each object of the host has one value, and so has each constant, from when they are first asked for,
whatever callers do besides a reload. Only a constant that does not equal itself has another value each time,
and so may an object have that is made from one. -/
theorem one_value_per_object {options : Options} {host : Host} {hostRequests : List Request} {first : Session}
    (made : create options host hostRequests = .ok first) (earlier between : List Operation)
    (others : ∀ o ∈ between, o ≠ .reload) :
    let s := afterAll earlier first
    (∀ object found t, s.host.Plain object → valueOf object s = .ok found t →
      ∃ r, valueOf object (afterAll between t) = .ok found r) ∧
    ∀ value found t, constantValue value s = .ok found t →
      if value == value then ∃ r, constantValue value (afterAll between t) = .ok found r
      else ∀ again r, constantValue value (afterAll between t) = .ok again r → again ≠ found := by
  intro s
  have rest : AtRest s := (AtRest.create made).afterAll earlier
  have later : ∀ t, Remembers t (afterAll between t) := .afterAll others
  refine ⟨fun object found t plain ends => ?_, fun value found t ends => ?_⟩
  · obtain ⟨-, lasting, -⟩ := Repeats.valueOf object s rest plain found t ends
    obtain ⟨r, again, -⟩ := lasting _ (later t)
    exact ⟨r, again⟩
  · split
    · next equals =>
      obtain ⟨-, lasting, -⟩ := Repeats.constantValue (P := fun _ => True) equals s rest trivial found t ends
      obtain ⟨r, again, -⟩ := lasting _ (later t)
      exact ⟨r, again⟩
    · next odd =>
      rw [Bool.not_eq_true] at odd
      intro again r repeated
      obtain ⟨v, rfl, -, before⟩ := constantValue_new (missing_of_odd odd _) ends
      obtain ⟨w, rfl, since, -⟩ := constantValue_new (missing_of_odd odd _) repeated
      rintro ⟨⟩
      exact Nat.lt_irrefl _ (Nat.lt_of_lt_of_le before (Nat.le_trans (later t).size since))

/-- What an action yields, unless it fails. -/
def yield? (m : Analysis α) (s : Session) : Option α :=
  match m s with
  | .ok a _ => some a
  | .error _ _ => none

theorem ok_of_yield? {m : Analysis α} {s : Session} {a : α} (h : yield? m s = some a) :
    m s = .ok a (after m s) := by
  cases run : m s with
  | ok b t =>
    rw [yield?, run] at h
    cases h
    rw [after_of_ok run]
  | error e t =>
    rw [yield?, run] at h
    cases h

/-- A host with a number, and an object that stands for the number or for nothing. -/
def doubtfulHost : Host where
  objects := #[⟨.primitive (.float (.finite false 6755399441055744 (-52))), .primitive⟩,
    ⟨.multiple [some ⟨0⟩, none], .multipleMembers⟩]

private theorem plain_doubtfulHost : doubtfulHost.Plain (some ⟨1⟩) := by
  have single : doubtfulHost.classify ⟨0⟩ ≠ .multipleMembers := by decide
  intro o involved
  cases involved with
  | self => exact ⟨by decide, by rintro _ ⟨⟩⟩
  | @alternative _ _ a _ mem inner =>
    have options : a = some ⟨0⟩ ∨ a = none := by simpa [doubtfulHost, Host.alternatives, Host.object] using mem
    rcases options with rfl | rfl
    · cases inner with
      | self =>
        refine ⟨by decide, ?_⟩
        rintro _ ⟨⟩
        decide
      | alternative several => exact absurd several single
    · cases inner

def doubtful : Session := after load (blank {} doubtfulHost [])

/-- A module is added and analysed between two questions for an object that stands for a number or for
nothing. -/
theorem one_value_when_doubtful :
    ∃ r, valueOf (some ⟨1⟩) (afterAll returningModule (after (valueOf (some ⟨1⟩)) doubtful)) =
      .ok (some ⟨2⟩) r := by
  have made : create {} doubtfulHost [] = .ok doubtful := create_unasked _ _
  have finds : yield? (valueOf (some ⟨1⟩)) doubtful = some (some ⟨2⟩) := by decide +kernel
  have others : ∀ o ∈ returningModule, o ≠ .reload := by
    intro o mem
    simp only [returningModule, List.mem_cons, List.not_mem_nil, or_false] at mem
    rcases mem with rfl | rfl | rfl <;> rintro ⟨⟩
  have plain : doubtful.host.Plain (some ⟨1⟩) := plain_doubtfulHost.grows (Remembers.load (blank {} doubtfulHost [])).host
  exact (one_value_per_object made [] returningModule others).1 _ _ _ plain (ok_of_yield? finds)

/-- A host with one object, a number that does not equal itself. -/
def oddHost : Host := { objects := #[⟨.primitive (.float (.nan false)), .primitive⟩] }

/-- A number that does not equal itself has another value each time it is asked for. -/
theorem odd_number_has_many_values :
    ¬ ∀ (s t r : Session) (object : Option ObjectId) (found again : Found),
      valueOf object s = .ok found t → valueOf object t = .ok again r → again = found := by
  intro same
  let s := after load (blank {} oddHost [])
  have yields : yield? (valueOf (some ⟨0⟩)) s = some (some ⟨0⟩) ∧
      yield? (valueOf (some ⟨0⟩)) (after (valueOf (some ⟨0⟩)) s) = some (some ⟨1⟩) := by
    decide +kernel
  have one := same _ _ _ _ _ _ (ok_of_yield? yields.1) (ok_of_yield? yields.2)
  cases one

end Typeflow.Session
