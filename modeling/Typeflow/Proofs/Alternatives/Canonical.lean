import Typeflow.Proofs.Alternatives.Meaning

/-! Putting values together. What a list of values is put together as depends only on the set of these values, and
stays the same until a reload. -/
namespace Typeflow.Session

variable {s t : Session} {v : ValueId} {xs ys : List Found} {found again : Found}

/-- What is asked of a session: an operation, or for the value of an object, a constant or some alternatives. -/
inductive Inquiry where
  | operation (o : Operation)
  | object (target : Option ObjectId)
  | constant (value : Constant)
  | aggregate (members : List Found)

def Inquiry.run : Inquiry → Analysis Unit
  | .operation o => o.run
  | .object target => do let _ ← valueOf target
  | .constant value => do let _ ← constantValue value
  | .aggregate members => do let _ ← Session.aggregate members

/-- The session after some inquiries, whether they fail or not. -/
def afterInquiries (inquiries : List Inquiry) (s : Session) : Session := inquiries.foldl (fun s e => after e.run s) s

private theorem roams_aggregate (members : List Found) : Roams noLicence .all (aggregate members) Realm.all.found :=
  .aggregate fun _ _ _ _ => trivial

/-- What is no operation only looks values up. -/
theorem Inquiry.roams {e : Inquiry} (plain : ∀ o, e ≠ .operation o) : Roams noLicence .all e.run fun _ => True := by
  cases e with
  | operation o => exact absurd rfl (plain o)
  | object target => exact .bind (Roams.valueOf target) fun _ _ => .pure trivial
  | constant value => exact .bind (Roams.constantValue value) fun _ _ => .pure trivial
  | aggregate members => exact .bind (roams_aggregate members) fun _ _ => .pure trivial

private theorem Reliable.inquiry (h : Reliable s) (e : Inquiry) : Reliable (after e.run s) := by
  cases e with
  | operation o => exact ⟨h.rest.operation o, h.truthful.operation o⟩
  | object | constant | aggregate => exact h.of_roams (Inquiry.roams nofun)

private theorem Reliable.afterInquiries (h : Reliable s) (inquiries : List Inquiry) : Reliable (afterInquiries inquiries s) := by
  induction inquiries generalizing s with
  | nil => exact h
  | cons e rest ih => exact ih (h.inquiry e)

private theorem Remembers.inquiry {e : Inquiry} (other : e ≠ .operation .reload) (s : Session) :
    Remembers s (after e.run s) := by
  cases e with
  | operation o =>
    have others : o ≠ .reload := fun same => other (congrArg _ same)
    exact .operation others s
  | object | constant | aggregate =>
    refine .of_roams (Inquiry.roams ?_) s
    nofun

private theorem Remembers.afterInquiries {inquiries : List Inquiry} (others : ∀ e ∈ inquiries, e ≠ .operation .reload)
    (s : Session) : Remembers s (afterInquiries inquiries s) := by
  induction inquiries generalizing s with
  | nil => exact .refl s
  | cons e rest ih =>
    obtain ⟨other, others⟩ := List.forall_mem_cons.1 others
    exact (inquiry other s).trans (ih others _)

/-- A set of alternatives that has been made from values is none of them. -/
theorem Proper.notMem {members : List ValueId} (h : s.Proper v) (form : s.form v = .multiple members) :
    v ∉ members := by
  induction h generalizing members with
  | single _ single =>
    rw [form] at single
    exact absurd rfl single
  | several _ several _ _ _ ih =>
    rw [several] at form
    cases form
    intro mem
    exact ih _ mem several mem

/-- There are two values in the list. -/
def Several (xs : List Found) : Prop := ∃ v w, v ≠ w ∧ some v ∈ xs ∧ some w ∈ xs

/-- The values of a list, each once and in the order in which they were made. -/
def listed (xs : List Found) : List ValueId := (ValueList.ofList (xs.filterMap fun v => v)).toList

theorem mem_listed : v ∈ listed xs ↔ some v ∈ xs := by simp [listed]

private theorem listed_increasing (xs : List Found) : (listed xs).Pairwise (·.index < ·.index) := ValueList.ordered _

private theorem listed_eq_iff : listed xs = listed ys ↔ ∀ v, some v ∈ xs ↔ some v ∈ ys := by
  constructor
  · intro same v
    rw [← mem_listed, same, mem_listed]
  · intro same
    have alike : ValueList.ofList (xs.filterMap fun v => v) = ValueList.ofList (ys.filterMap fun v => v) := by
      apply ValueList.ext_mem
      intro v
      exact mem_listed.trans ((same v).trans mem_listed.symm)
    unfold listed
    rw [alike]

/-- What a list of values is put together as: nothing for no value, the value itself for one, and otherwise a set of
alternatives that has just these values, in the order in which they were made. -/
structure Together (s : Session) (xs : List Found) (found : Found) : Prop where
  nothing : found = none ↔ ∀ v, some v ∉ xs
  itself : ∀ v, (∀ w, some w ∈ xs ↔ w = v) → found = some v
  only : ∀ v, found = some v → (s.form v).kind ≠ .multipleMembers ∨ some v ∈ xs ∧ s.Proper v →
    ∀ w, some w ∈ xs ↔ w = v
  several : Several xs → ∃ m members, found = some m ∧ s.form m = .multiple members ∧
    members.Pairwise (·.index < ·.index) ∧ ∀ w, w ∈ members ↔ some w ∈ xs

private theorem not_several_of_only {v : ValueId} (only : ∀ w, some w ∈ xs ↔ w = v) : ¬Several xs := by
  rintro ⟨u, w, differ, hu, hw⟩
  have first : u = v := (only u).1 hu
  have second : w = v := (only w).1 hw
  exact differ (first.trans second.symm)

private theorem several_of_length (many : 2 ≤ (listed xs).length) : Several xs := by
  have first : (listed xs)[0] ∈ listed xs := List.getElem_mem _
  have second : (listed xs)[1] ∈ listed xs := List.getElem_mem _
  have before := List.pairwise_iff_getElem.1 (listed_increasing xs) 0 1 (by omega) (by omega) (by omega)
  have differ : (listed xs)[0] ≠ (listed xs)[1] := by
    intro same
    rw [same] at before
    exact Nat.lt_irrefl _ before
  exact ⟨_, _, differ, mem_listed.1 first, mem_listed.1 second⟩

namespace Together

private theorem of_nothing (empty : ∀ v, some v ∉ xs) : Together s xs none where
  nothing := by simp [empty]
  itself v only := absurd ((only v).2 rfl) (empty v)
  only := nofun
  several := by
    rintro ⟨v, -, -, mem, -⟩
    exact absurd mem (empty v)

private theorem of_only {v : ValueId} (only : ∀ w, some w ∈ xs ↔ w = v) : Together s xs (some v) where
  nothing := by
    have there : some v ∈ xs := (only v).2 rfl
    constructor
    · nofun
    · intro empty
      exact absurd there (empty v)
  itself w other := by rw [(other v).1 ((only v).2 rfl)]
  only := by
    rintro _ ⟨⟩ -
    exact only
  several several := absurd several (not_several_of_only only)

private theorem of_several {m : ValueId} (several : Several xs) (form : s.form m = .multiple (listed xs)) :
    Together s xs (some m) where
  nothing := by
    obtain ⟨v, -, -, there, -⟩ := several
    constructor
    · nofun
    · intro empty
      exact absurd there (empty v)
  itself v only := absurd several (not_several_of_only only)
  only := by
    rintro _ ⟨⟩ (single | ⟨mem, proper⟩)
    · rw [form] at single
      exact absurd rfl single
    · exact absurd (mem_listed.2 mem) (proper.notMem form)
  several _ := ⟨m, listed xs, rfl, form, listed_increasing xs, fun _ => mem_listed⟩

end Together

/-- Whatever values are put together, this ends, and a set of alternatives is kept under its text. -/
theorem aggregate_together (reliable : Reliable s) (xs : List Found) :
    ∃ found t, aggregate xs s = .ok found t ∧ Together t xs found ∧ Reliable t ∧
      (Several xs → t.aggregates.find? (alternativesKey (listed xs)) = some found) := by
  obtain ⟨found, run⟩ := total_aggregate xs s
  have later : Reliable (after (aggregate xs) s) := reliable.of_roams (roams_aggregate xs)
  refine ⟨found, _, run, ?_⟩
  generalize after (aggregate xs) s = t at run later
  have cases : (listed xs = [] ∧ aggregate xs = pure none) ∨
      (∃ only, listed xs = [only] ∧ aggregate xs = pure (some only)) ∨
      2 ≤ (listed xs).length ∧ ∃ make, aggregate xs = aggregateField.recall (alternativesKey (listed xs)) make :=
    aggregate_cases xs
  rcases cases with ⟨none, same⟩ | ⟨only, one, same⟩ | ⟨many, make, same⟩ <;> rw [same] at run
  · cases run
    have empty : ∀ v, some v ∉ xs := by
      intro v
      rw [← mem_listed, none]
      exact List.not_mem_nil
    exact ⟨.of_nothing empty, later, fun ⟨v, _, _, mem, _⟩ => absurd mem (empty v)⟩
  · cases run
    have members : ∀ w, some w ∈ xs ↔ w = only := by
      intro w
      rw [← mem_listed, one, List.mem_singleton]
    exact ⟨.of_only members, later, fun several => absurd several (not_several_of_only members)⟩
  · have kept : t.aggregates.find? (alternativesKey (listed xs)) = some found :=
      CacheField.find?_of_recall (fun _ _ => rfl) (by simp) run
    cases found with
    | none => exact absurd kept (later.rest.aggregates _)
    | some m =>
      have form := (later.truthful.aggregates _ m kept).2
      exact ⟨.of_several (several_of_length many) form, later, fun _ => kept⟩

/-- Values that are put together again after any inquiries but a reload give what they gave at first. Which set of
alternatives several values give tells which values they are. -/
theorem aggregates_are_canonical {options : Options} {host : Host} {hostRequests : List Request} {first : Session}
    (made : create options host hostRequests = .ok first) (earlier between : List Inquiry)
    (others : ∀ e ∈ between, e ≠ .operation .reload) (xs ys : List Found) :
    ∃ found t again r, aggregate xs (afterInquiries earlier first) = .ok found t ∧
      aggregate ys (afterInquiries between t) = .ok again r ∧
      Together t xs found ∧ Together r ys again ∧
      (Several xs → Several ys → (found = again ↔ ∀ v, some v ∈ xs ↔ some v ∈ ys)) := by
  have reliable : Reliable (afterInquiries earlier first) := (Reliable.create made).afterInquiries earlier
  obtain ⟨found, t, run, together, later, kept⟩ := aggregate_together reliable xs
  obtain ⟨again, r, rerun, together', latest, kept'⟩ := aggregate_together (later.afterInquiries between) ys
  refine ⟨found, t, again, r, run, rerun, together, together', ?_⟩
  intro several several'
  have onward : Remembers t r := by
    have next : Remembers (afterInquiries between t) (after (aggregate ys) (afterInquiries between t)) :=
      .of_roams (roams_aggregate ys) _
    rw [after_of_ok rerun] at next
    exact (Remembers.afterInquiries others t).trans next
  obtain ⟨m, -, rfl, -⟩ := together.several several
  obtain ⟨n, -, rfl, -⟩ := together'.several several'
  -- Both sets of alternatives are kept in the end, each under the text of its values.
  have keptStill : r.aggregates.find? (alternativesKey (listed xs)) = some (some m) :=
    onward.aggregates.stays _ _ (kept several)
  have keptNow := kept' several'
  rw [← listed_eq_iff]
  constructor
  · rintro ⟨⟩
    have ofFirst := (latest.truthful.aggregates _ m keptStill).2
    have ofSecond := (latest.truthful.aggregates _ m keptNow).2
    rw [ofFirst] at ofSecond
    exact Form.multiple.inj ofSecond
  · intro same
    rw [same, keptNow] at keptStill
    exact (Option.some.inj keptStill).symm

/-- A number and a text are put together, and again in the other order with one of them twice, after a module has
been added. -/
theorem aggregates_are_canonical_reordered :
    let s := afterInquiries [.constant (.int 1), .constant (.str "b")] bare
    let xs : List Found := [some ⟨0⟩, some ⟨1⟩]
    let ys : List Found := [some ⟨1⟩, none, some ⟨0⟩, some ⟨1⟩]
    (s.value ⟨0⟩).constant? = some (.int 1) ∧ (s.value ⟨1⟩).constant? = some (.str "b") ∧
    ∃ m members t r, aggregate xs s = .ok (some m) t ∧
      aggregate ys (afterInquiries [.operation (.addModule "m" "/m.py")] t) = .ok (some m) r ∧
      t.form m = .multiple members ∧ members.Pairwise (·.index < ·.index) ∧
      ∀ w, w ∈ members ↔ w = ⟨0⟩ ∨ w = ⟨1⟩ := by
  intro s xs ys
  have values : (s.value ⟨0⟩).constant? = some (.int 1) ∧ (s.value ⟨1⟩).constant? = some (.str "b") := by
    decide +kernel
  have others : ∀ e ∈ [Inquiry.operation (.addModule "m" "/m.py")], e ≠ .operation .reload := by
    intro e mem
    rw [List.mem_singleton.1 mem]
    nofun
  have several : Several xs := ⟨⟨0⟩, ⟨1⟩, by decide, by simp [xs], by simp [xs]⟩
  have several' : Several ys := ⟨⟨0⟩, ⟨1⟩, by decide, by simp [ys], by simp [ys]⟩
  obtain ⟨found, t, again, r, run, rerun, together, -, same⟩ := aggregates_are_canonical create_bare
    [.constant (.int 1), .constant (.str "b")] [.operation (.addModule "m" "/m.py")] others xs ys
  obtain ⟨m, members, rfl, form, increasing, all⟩ := together.several several
  have alike : some m = again := by
    rw [same several several']
    intro v
    simp [xs, ys]
    tauto
  refine ⟨values.1, values.2, m, members, t, r, run, alike ▸ rerun, form, increasing, ?_⟩
  intro w
  rw [all]
  simp [xs]

end Typeflow.Session
