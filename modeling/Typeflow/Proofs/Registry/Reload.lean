import Typeflow.Proofs.Registry.Lasting

/-! What loading the host again does to the registrations: the standard ones are made anew, all others
stay as they were, and so they are installed from then on. -/
namespace Typeflow

/-- Each of the standard registrations is for a function of its own. -/
theorem nodup_standardRegistrations (options : Options) :
    ((standardRegistrations options).map Registration.key).Nodup := by
  simp [standardRegistrations, builtinRegistrations, libraryRegistrations, Override.alone,
    Override.beside, Registration.key]

/-- Of registrations for functions of their own each one is held. -/
theorem held_of_nodup {rs : List Registration} (h : (rs.map Registration.key).Nodup) {r : Registration}
    (hr : r ∈ rs) (before : Option Specialization) :
    held (fun other => other.key = r.key) rs before = some r.specialization := by
  have there : ∃ other ∈ rs, other.key = r.key := ⟨r, hr, rfl⟩
  rw [held_of_mem there (some r.specialization)]
  refine held_eq_before fun other ho same => ?_
  rw [List.inj_on_of_nodup_map h ho hr same]

namespace Session

variable {s : Session}

/-- A reload leaves every registration as it was, unless the function is one of those that have a
standard registration: these get it back, whatever was asked for. From then on the log changes by what
is registered only, and every place in which a registration is installed holds what is in the log as
long as no other one is meant for the place. -/
theorem reload_keeps_registrations {options : Options} {host : Host}
    (created : create options host [] = .ok s) (ops : List Operation) :
    let start := blank options host []
    let p := afterAll ops s
    let t := after reload p
    (∀ key, (∀ r ∈ standardRegistrations options, r.key ≠ key) →
      t.registered? key = p.registered? key) ∧
    (∀ r ∈ standardRegistrations options, t.registered? r.key = some r.specialization) ∧
    (∀ later : List Operation,
      Course True t (later.flatMap (·.registrations options [])) (afterAll later t)) ∧
    ∀ made u, Course True t made u → ∀ key,
      u.registered? key = held (fun r => r.key = key) made (t.registered? key) ∧
      ∀ m qualified, InPlace True start key (m, qualified) u →
        u.specialization? m qualified = u.registered? key := by
  intro start p t
  have empty : Tabled start := tabled_blank _ _ _
  have first : Course True start _ s := course_create created
  have whole : Course True start _ p :=
    first.trans (course_afterAll ops (fun _ _ _ => trivial) (first.tabled empty))
  have tabled := whole.tabled empty
  have reloaded : Course True p _ t := course_reload tabled
  obtain ⟨sameOptions, sameRequests⟩ := whole.options empty
  rw [sameOptions, sameRequests] at reloaded
  have after_ : t.options = options ∧ t.hostRequests = [] :=
    (reloaded.options tabled).imp (·.trans sameOptions) (·.trans sameRequests)
  have log : ∀ key, t.registered? key =
      held (fun r => r.key = key) (standardRegistrations options) (p.registered? key) := by
    intro key
    rw [reloaded.registered? tabled key, held_append]
    rfl
  refine ⟨fun key other => ?_, fun r hr => ?_, fun later => ?_, fun made u course key => ⟨?_, ?_⟩⟩
  · rw [log]
    exact held_eq_before fun r hr same => absurd same (other r hr)
  · rw [log]
    exact held_of_nodup (nodup_standardRegistrations options) hr _
  · have goesOn : Course True t _ (afterAll later t) :=
      course_afterAll later (fun _ _ _ => trivial) (reloaded.tabled tabled)
    rwa [after_.1, after_.2] at goesOn
  · exact course.registered? (reloaded.tabled tabled) key
  · exact fun m qualified placed => placed.exact_ empty

/-- A replacement for a function that has no standard registration is installed after a reload. -/
theorem reload_keeps_registrations_installing :
    let r : Registration := ⟨"P", "f", ⟨.recipe none .set (.instanceOf .int), true⟩⟩
    let t := after reload (afterAll [.addModule "P" "/P.py", .specialize (.replace r)] bare)
    t.registered? ("P", "f") = some r.specialization ∧
      ∃ m, t.loadedModule? "P" = some m ∧
        (after installEvery t).specialization? m "f" = some r.specialization := by
  intro r t
  let ops : List Operation := [.addModule "P" "/P.py", .specialize (.replace r)]
  let start := blank {} {} []
  obtain ⟨keeps, -, -, installs⟩ := reload_keeps_registrations create_bare ops
  have first : Course True start _ bare := course_create create_bare
  have tabled := first.tabled (tabled_blank _ _ _)
  have before : Course True start _ (afterAll ops bare) :=
    first.trans (course_afterAll ops (fun _ _ _ => trivial) tabled)
  have asked : (afterAll ops bare).registered? ("P", "f") = some r.specialization := by
    rw [before.registered? (tabled_blank _ _ _)]
    simp [ops, held, Operation.registrations, Request.registration?, Registration.key, r]
  obtain ⟨target, only, logged, loaded⟩ :
      (after installEvery t).targetOfKey? ("P", "f") = some (⟨0⟩, "f") ∧
      (∀ q ∈ (after installEvery t).logged,
        (after installEvery t).targetOf? q = some (⟨0⟩, "f") → q.key = ("P", "f")) ∧
      (∃ q ∈ t.logged, q.key = ("P", "f")) ∧ t.loadedModule? "P" = some ⟨0⟩ := by decide +kernel
  have kept := (keeps ("P", "f") (by decide +kernel)).trans asked
  have whole : Course True start _ t :=
    before.trans (course_reload (before.tabled (tabled_blank _ _ _)))
  have again : RegistryMove True t [] t.logged (after installEvery t) := .installEvery
  obtain ⟨log, places⟩ := installs _ _ (.single again) ("P", "f")
  rw [held, List.foldl_nil, kept] at log
  have placed := places ⟨0⟩ "f" (.installed whole again logged ⟨target, only⟩)
  exact ⟨kept, ⟨0⟩, loaded, placed.trans log⟩

/-- A replacement for a function that has a standard registration, and the module of the function. -/
def overriding : List Operation :=
  [.specialize (.replace ⟨"copy", "copy", ⟨.recipe none .set (.instanceOf .int), true⟩⟩),
    .addModule "copy" "/copy.py"]

/-- Loading again makes the standard registrations before it installs what is in the log, and so they
take the place of what a caller asked for. -/
theorem reload_drops_override :
    let p := afterAll overriding bare
    let t := after reload p
    (p.registered? ("copy", "copy")).map (·.analyze) = some true ∧
      (t.registered? ("copy", "copy")).map (·.analyze) = some false ∧
      ((t.loadedModule? "copy").bind (t.specialization? · "copy")).map (·.analyze) = some false := by
  decide +kernel

end Session

end Typeflow
