import Typeflow.Proofs.Registry.History

/-! Registrations last: whatever is bound, loaded and registered later, a registration that is meant for
a module has an entry in its table, and it is the one last registered as long as no other registration
is meant for the place. -/
namespace Typeflow.Session

variable {s t : Session} {removals : Prop}

/-- Of all that is registered only the registration for a function is meant for a place. -/
structure Sole (s : Session) (key : String × String) (place : ValueId × String) : Prop where
  target : s.targetOfKey? key = some place
  only : ∀ r ∈ s.logged, s.targetOf? r = some place → r.key = key

/-- The registration for a function was installed while it was the only one meant for a place, and it
has been the only one since. -/
inductive InPlace (removals : Prop) (start : Session) (key : String × String)
    (place : ValueId × String) : Session → Prop
  | installed {made more rs : List Registration} {s t : Session} (course : Course removals start made s)
      (move : RegistryMove removals s more rs t) (own : ∃ r ∈ rs, r.key = key) (sole : Sole t key place) :
      InPlace removals start key place t
  | kept {more rs : List Registration} {s t : Session} (before : InPlace removals start key place s)
      (move : RegistryMove removals s more rs t) (sole : Sole t key place) :
      InPlace removals start key place t

/-- What is installed in a move is in the log afterwards. -/
theorem Replayed.logged {rs : List Registration} (h : Replayed s rs t) {r : Registration} (hr : r ∈ rs) :
    ∃ other ∈ t.logged, other.key = r.key := by
  have found : (t.registered? r.key).isSome = true := by
    rw [h.log]
    exact isSome_held (.inr ⟨r, hr, rfl⟩)
  obtain ⟨specialization, hs⟩ := Option.isSome_iff_exists.1 found
  exact ⟨_, h.tabled.filed.mem_of_registered? hs, rfl⟩

/-- A place for which only one registration is meant is changed by installing that one only. -/
theorem Sole.slots {rs : List Registration} {key : String × String} {place : ValueId × String}
    (sole : Sole t key place) (h : Replayed s rs t) :
    t.specialization? place.1 place.2 =
      held (fun r => r.key = key) rs (s.specialization? place.1 place.2) := by
  rw [h.slots]
  refine held_congr fun r hr => ⟨fun target => ?_, fun own => ?_⟩
  · obtain ⟨other, logged, same⟩ := h.logged hr
    rw [targetOf?_eq, ← same, ← targetOf?_eq] at target
    exact same ▸ sole.only other logged target
  · rw [targetOf?_eq, own]
    exact sole.target

namespace InPlace

variable {start : Session} {key : String × String} {place : ValueId × String}

theorem tabled (h : InPlace removals start key place t) (first : Tabled start) : Tabled t := by
  induction h with
  | installed course move => exact (move.replayed (course.tabled first)).tabled
  | kept _ move _ ih => exact (move.replayed ih).tabled

/-- The place holds exactly what is registered for the function. -/
theorem exact_ (h : InPlace removals start key place t) (first : Tabled start) :
    t.specialization? place.1 place.2 = t.registered? key := by
  induction h with
  | installed course move own sole =>
    have replayed := move.replayed (course.tabled first)
    rw [sole.slots replayed, replayed.log]
    exact held_of_mem own _
  | kept before move sole ih =>
    have replayed := move.replayed (before.tabled first)
    rw [sole.slots replayed, replayed.log, ih]

end InPlace

/-- Every registration that is meant for a module has an entry there. -/
def Filled (s : Session) : Prop :=
  ∀ r ∈ s.logged, ∀ m qualified, s.targetOf? r = some (m, qualified) →
    (s.specialization? m qualified).isSome = true

/-- What comes to be meant for another place is installed there. -/
theorem Filled.move {made rs : List Registration} (filled : Filled s) (tabled : Tabled s)
    (move : RegistryMove False s made rs t) : Filled t := by
  intro r hr m qualified target
  have replayed := move.replayed tabled
  rw [replayed.slots]
  by_cases again : ∃ other ∈ rs, other.key = r.key
  · obtain ⟨other, ho, same⟩ := again
    refine isSome_held (.inr ⟨other, ho, ?_⟩)
    rw [targetOf?_eq, same, ← targetOf?_eq, target]
  · have found := replayed.tabled.filed.registered?_of_mem hr
    rw [replayed.log, held_eq_before fun other ho same => absurd ⟨other, ho, same⟩ again] at found
    have before := tabled.filed.mem_of_registered? found
    have stays := (move.covers tabled before).resolve_right again
    refine isSome_held (.inl (filled _ before m qualified ?_))
    exact stays.symm.trans target

theorem Filled.course {made : List Registration} (filled : Filled s) (tabled : Tabled s)
    (course : Course False s made t) : Filled t := by
  induction course with
  | refl => exact filled
  | tail before move ih => exact ih.move (before.tabled tabled) move

/-- No registration is lost. As long as no module is removed, everything that was registered is in the
log with what was last asked for, a registration for a function of a loaded module has an entry in its
table, one for a class of a loaded module has an entry in the table of that module, and a place that no
other registration has been meant for since holds exactly what was last asked for. -/
theorem no_registration_is_lost {options : Options} {host : Host} {hostRequests : List Request}
    (created : create options host hostRequests = .ok s) :
    let start := blank options host hostRequests
    (∀ ops : List Operation, (∀ o ∈ ops, ¬ o.removes) →
      Course False start
        (standardRegistrations options ++ fulfilled hostRequests ++
          ops.flatMap (·.registrations options hostRequests)) (afterAll ops s)) ∧
    ∀ made t, Course False start made t →
      (∀ r ∈ made, ∃ last ∈ t.logged, last.key = r.key) ∧
      ∀ r ∈ t.logged,
        held (fun other => other.key = r.key) made none = some r.specialization ∧
        (∀ m, t.loadedModule? r.module = some m → (t.specialization? m r.name).isSome) ∧
        (t.loadedModule? r.module = none → ∀ parent last m,
          Text.lastDot r.module = some (parent, last) → t.loadedModule? parent = some m →
            (t.specialization? m (last ++ "." ++ r.name)).isSome) ∧
        ∀ m qualified, InPlace False start r.key (m, qualified) t →
          t.specialization? m qualified = some r.specialization := by
  intro start
  have tabled : Tabled start := tabled_blank _ _ _
  have first : Course False start _ s := course_create created
  refine ⟨fun ops stay => ?_, fun made t course => ?_⟩
  · have later := course_afterAll ops (fun o ho => stay o ho) (first.tabled tabled)
    rw [(first.options tabled).1, (first.options tabled).2] at later
    exact first.trans later
  · have ordered := course.tabled tabled
    have nothing : Filled start := by
      intro r hr
      cases (show r ∈ ([] : List Registration) from hr)
    have filled : Filled t := nothing.course tabled course
    have log : ∀ key, t.registered? key = held (fun r => r.key = key) made none :=
      course.registered? tabled
    refine ⟨fun r hr => ?_, fun r hr => ?_⟩
    · have found : (t.registered? r.key).isSome = true := by
        rw [log]
        exact isSome_held (.inr ⟨r, hr, rfl⟩)
      obtain ⟨specialization, hs⟩ := Option.isSome_iff_exists.1 found
      exact ⟨_, ordered.filed.mem_of_registered? hs, rfl⟩
    · have found := ordered.filed.registered?_of_mem hr
      refine ⟨(log r.key).symm.trans found, fun m own => filled r hr m r.name ?_,
        fun none parent last m dot above => filled r hr m _ ?_, fun m qualified placed => ?_⟩
      · simp only [targetOf?, own]
      · simp only [targetOf?, none, dot, above, bind, Option.bind_some]
      · exact (placed.exact_ tabled).trans found

/-- A replacement for a function of a module that was added before. -/
theorem no_registration_is_lost_registering :
    let r : Registration := ⟨"P", "f", ⟨.recipe none .set (.instanceOf .int), true⟩⟩
    let s := afterAll [.addModule "P" "/P.py"] bare
    let t := after (register r) s
    ∃ m, t.loadedModule? "P" = some m ∧ t.specialization? m "f" = some r.specialization := by
  intro r s t
  obtain ⟨histories, lasting⟩ := no_registration_is_lost create_bare
  have course : Course False (blank {} {} []) _ s :=
    histories [.addModule "P" "/P.py"] (by simp [Operation.removes])
  have move : RegistryMove False s [r] [r] t := .register r
  obtain ⟨logged, entries⟩ := lasting _ t (course.tail move)
  obtain ⟨last, hl, same⟩ := logged r (List.mem_append_right _ (List.mem_singleton_self r))
  obtain ⟨asked, -, -, exactly⟩ := entries last hl
  obtain ⟨target, only, loaded⟩ : t.targetOfKey? ("P", "f") = some (⟨0⟩, "f") ∧
      (∀ q ∈ t.logged, t.targetOf? q = some (⟨0⟩, "f") → q.key = ("P", "f")) ∧
      t.loadedModule? "P" = some ⟨0⟩ := by decide +kernel
  have sole : Sole t last.key (⟨0⟩, "f") := by
    rw [same]
    exact ⟨target, only⟩
  have placed := exactly ⟨0⟩ "f" (.installed course move ⟨r, List.mem_singleton_self r, same.symm⟩ sole)
  rw [held_append, same] at asked
  refine ⟨⟨0⟩, loaded, placed.trans (asked.symm.trans ?_)⟩
  simp [held]

/-- A registration for a function of a module, one for a class of it that is named like a module, and
that module. -/
def competing : List Operation :=
  let whole : Override := .recipe none .set (.instanceOf .int)
  let text : Override := .recipe none .set (.instanceOf .str)
  [.addModule "P" "/P.py", .specialize (.replace ⟨"P", "s.n", ⟨whole, true⟩⟩),
    .specialize (.replace ⟨"P.s", "n", ⟨text, false⟩⟩), .addModule "P.s" "/P/s.py"]

/-- Nothing is taken out of a table: what a registration installed stays after it has come to be meant
for a module of its own, although the log has another registration for the place, and only that. -/
theorem registration_is_outlived :
    let t := afterAll competing bare
    (∀ o ∈ competing, ¬ o.removes) ∧ ∃ r ∈ t.logged, r.key = ("P", "s.n") ∧
      (∀ other ∈ t.logged, t.targetOf? other = t.targetOf? r → other.key = r.key) ∧
      ((t.loadedModule? "P").bind (t.specialization? · r.name)).map (·.analyze) =
        some (!r.specialization.analyze) := by
  refine ⟨?_, ?_⟩
  · simp [competing, Operation.removes]
  · decide +kernel

end Typeflow.Session
