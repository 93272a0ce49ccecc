import Typeflow.Proofs.Registry.Rebind

/-! The courses that the registry of a session takes: names are bound to modules, lose them and get
others, registrations are made, and what waits for a module is installed. -/
namespace Typeflow.Session

variable {s t q : Session}

def SameBut (name : String) (s t : Session) : Prop :=
  ∀ other, other ≠ name → t.loadedModule? other = s.loadedModule? other

/-- A name whose cell is left alone keeps its module. -/
theorem loadedModule?_congr {name : String} (cell : t.peek? name = s.peek? name)
    (ref : ∀ r, s.peek? name = some r → t.ref r = s.ref r) (values : t.values = s.values) :
    t.loadedModule? name = s.loadedModule? name := by
  refine Option.ext fun m => ?_
  simp only [loadedModule?_eq_some, cell, Session.value, values]
  exact exists_congr fun r => and_congr_right fun hr => by rw [ref r hr]

/-- What waits for a name is everything that may be meant for another module when the name is bound. -/
theorem mem_registrationsFor (filed : Filed s) {r : Registration} {name : String} (hr : r ∈ s.logged)
    (h : r.module = name ∨ (Text.lastPartBelow? name r.module).isSome = true) :
    r ∈ s.registrationsFor name := by
  obtain ⟨pair, hp, hm⟩ := mem_logged.1 hr
  refine List.mem_flatMap.2 ⟨pair, hp, ?_⟩
  rw [if_pos ?_]
  · exact hm
  · rw [← filed.own pair hp r hm]
    simpa using h

private theorem target_or_waits {name : String} (same : SameBut name s t) (filed : Filed s) {r : Registration}
    (hr : r ∈ s.logged) : t.targetOf? r = s.targetOf? r ∨ r ∈ s.registrationsFor name := by
  by_cases own : r.module = name
  · exact .inr (mem_registrationsFor filed hr (.inl own))
  · cases above : Text.lastDot r.module with
    | none => exact .inl (by simp only [targetOf?, same _ own, above, bind, Option.bind_none])
    | some halves =>
      obtain ⟨parent, last⟩ := halves
      by_cases below : parent = name
      · refine .inr (mem_registrationsFor filed hr (.inr ?_))
        exact Text.lastPartBelow?_of_lastDot (below ▸ above)
      · exact .inl (by simp only [targetOf?, same _ own, above, bind, Option.bind_some, same _ below])

/-- A module gets a cell of its own under a name. -/
theorem rebound_setModule (tabled : Tabled s) (name : String) {m : ValueId}
    (there : m.index < s.values.size) :
    let t := after (do setModule name (← newRef { module := some m, loaded := true })) s
    Rebound s t ∧ SameBut name s t := by
  intro t
  let ref : ModuleRef := { module := some m, loaded := true }
  let r : RefId := ⟨s.refs.size⟩
  let pushed : Session := { s with refs := s.refs.push ref }
  have run : t = after (setModule name r) pushed := rfl
  have first : Rebound s pushed := Rebinds.newRef s (by rintro _ ⟨⟩; exact there) tabled
  have fresh : r ∉ pushed.modules.toList.map Prod.snd := by
    intro old
    obtain ⟨pair, hp, same⟩ := List.mem_map.1 old
    have lt := tabled.placed pair hp
    rw [same] at lt
    exact Nat.lt_irrefl _ lt
  have last : r.index < pushed.refs.size := by simp [pushed, r]
  -- A cell that was there before has not changed unless it was the one of the name.
  have kept : ∀ other, s.peek? other ≠ some r := fun other h =>
    Nat.lt_irrefl _ (tabled.index_lt h)
  have look : ∀ other r', s.peek? other = some r' → pushed.ref r' = s.ref r' := by
    intro other r' hr'
    have lt := tabled.index_lt hr'
    simp only [Session.ref, pushed, getD_push, if_neg (Nat.ne_of_lt lt)]
  cases hp : s.peek? name with
  | none =>
    have ends : t = { pushed with modules := pushed.modules.insert name r } := by
      rw [run]
      simp only [setModule, after_read, show pushed.peek? name = none from hp]
      rfl
    rw [ends]
    refine ⟨first.trans (Rebinds.insert last fresh first.tabled), fun other ho => ?_⟩
    exact loadedModule?_congr ((NameMap.find?_insert _ _ _ _).trans (if_neg ho)) (look other) rfl
  | some old =>
    have ne : old ≠ r := fun same => kept name (same ▸ hp)
    let invalid := after (invalidate old) pushed
    have ends : t = { invalid with modules := invalid.modules.insert name r } := by
      rw [run]
      simp only [setModule, after_read, show pushed.peek? name = some old from hp, if_pos ne]
      rfl
    have second := Rebinds.rebound (Rebinds.invalidate old) first.tabled
    have wide : r.index < invalid.refs.size := by
      change r.index < (pushed.refs.modify old.index _).size
      rwa [Array.size_modify]
    rw [ends]
    refine ⟨(first.trans second).trans (Rebinds.insert wide fresh second.tabled), fun other ho => ?_⟩
    refine loadedModule?_congr ((NameMap.find?_insert _ _ _ _).trans (if_neg ho)) (fun r' hr' => ?_) rfl
    have apart : r' ≠ old := by
      rintro rfl
      exact ho (tabled.name_inj hr' hp)
    exact (ref_updateRef pushed old r' _).trans ((if_neg fun both => apart both.1).trans (look other r' hr'))

/-- Only the name of a cell notices what becomes of it. -/
theorem sameBut_updateRef (tabled : Tabled s) {name : String} {r : RefId} (cell : s.peek? name = some r)
    (f : ModuleRef → ModuleRef) : SameBut name s (after (updateRef r f) s) := by
  intro other ho
  refine loadedModule?_congr rfl (fun r' hr' => ?_) rfl
  have apart : r' ≠ r := by
    rintro rfl
    exact ho (tabled.name_inj hr' cell)
  rw [ref_updateRef, if_neg fun both => apart both.1]

/-- A cell that is found to be empty had no module before. -/
theorem sameModules_settle {r : RefId} (idle : (s.ref r).loaded = false) :
    SameModules s (after (updateRef r fun ref => { ref with module := none, loaded := true }) s) := by
  intro name
  refine Option.ext fun m => ?_
  rw [loadedModule?_eq_some, loadedModule?_eq_some]
  refine exists_congr fun r' => and_congr_right fun _ => ?_
  rw [ref_updateRef]
  split
  · next same =>
    rw [same.1]
    refine ⟨fun h => (nomatch h.1), fun h => ?_⟩
    rw [idle] at h
    cases h.2.1
  · rfl

/-- Binds a name to a module, in a cell of its own, and installs what waits for it. -/
def bindModule (name : String) (m : ValueId) : Analysis Unit := do
  setModule name (← newRef { module := some m, loaded := true })
  installFor name

theorem total_setModule (name : String) (r : RefId) : Total (setModule name r) := by
  refine .read fun s => ?_
  split
  · exact .ite (.bind (total_invalidate _) fun _ => .modify _) (.modify _)
  · exact .modify _

theorem after_bindModule (name : String) (m : ValueId) (s : Session) :
    after (bindModule name m) s =
      after (installFor name)
        (after (do setModule name (← newRef { module := some m, loaded := true })) s) :=
  after_seq (total_setModule name ⟨s.refs.size⟩) _

/-- Fills the table of modules again and installs everything, the standard registrations first. Other
things may be cleared in between. -/
def loadAgain (clear : Analysis Unit) : Analysis Unit := do
  resetModules
  clear
  loadStandard

/-- What an evaluation may do to the registry next, with the registrations that are installed. -/
inductive RegistryTurn (s : Session) : List Registration → Session → Prop
  /-- Whatever else goes on in a session. -/
  | aside {t : Session} (h : Aside s t) : RegistryTurn s [] t
  /-- The cell of a name is loaded with what the host has for it. -/
  | load (name : String) (r : RefId) (m : Found) (cell : s.peek? name = some r)
      (idle : (s.ref r).loaded = false) (there : ∀ v, m = some v → v.index < s.values.size) :
      RegistryTurn s (s.registrationsFor name) (after (loadCell r name m) s)
  /-- The host has nothing for a cell. -/
  | settle (r : RefId) (idle : (s.ref r).loaded = false) :
      RegistryTurn s [] (after (updateRef r fun ref => { ref with module := none, loaded := true }) s)

/-- One move in the course of a registry, with the registrations that are made and those that are
installed in it. Whether modules may be removed is up to the course. -/
inductive RegistryMove (removals : Prop) (s : Session) :
    List Registration → List Registration → Session → Prop
  | turn {rs : List Registration} {t : Session} (h : RegistryTurn s rs t) : RegistryMove removals s [] rs t
  | register (r : Registration) : RegistryMove removals s [r] [r] (after (register r) s)
  | bindModule (name : String) (m : ValueId) (there : m.index < s.values.size) :
      RegistryMove removals s [] (s.registrationsFor name) (after (bindModule name m) s)
  | installFor (name : String) :
      RegistryMove removals s [] (s.registrationsFor name) (after (installFor name) s)
  | installEvery : RegistryMove removals s [] s.logged (after installEvery s)
  | loadAgain (clear : Analysis Unit) (total : Total clear) (aside : ∀ q, Aside q (after clear q)) :
      RegistryMove removals s (standardRegistrations s.options)
        (standardRegistrations s.options ++ (after (loadAgain clear) s).logged)
        (after (loadAgain clear) s)
  | removeModule (allowed : removals) (e : EntryId) :
      RegistryMove removals s [] [] (after (removeModule (some e)) s)

/-- Any number of moves, with all registrations that are made in them. -/
inductive Course (removals : Prop) (s : Session) : List Registration → Session → Prop
  | refl : Course removals s [] s
  | tail {made more rs : List Registration} {t q : Session} (h : Course removals s made t)
      (last : RegistryMove removals t more rs q) : Course removals s (made ++ more) q

/-- After names were bound anew the registrations were installed, in order: every place and the entry
of every function hold what the last of them for it asks for. -/
structure Replayed (s : Session) (rs : List Registration) (t : Session) : Prop where
  slots : ∀ m qualified, t.specialization? m qualified =
    held (fun r => t.targetOf? r = some (m, qualified)) rs (s.specialization? m qualified)
  log : ∀ key, t.registered? key = held (fun r => r.key = key) rs (s.registered? key)
  options : t.options = s.options
  hostRequests : t.hostRequests = s.hostRequests
  tabled : Tabled t

theorem Replayed.of_installs {rs : List Registration} (h : Rebound s t) (g : Installs t rs q) :
    Replayed s rs q where
  slots m qualified := by
    rw [g.slots, h.replacement]
    simp only [g.same.targetOf?]
  log key := by rw [g.log, h.registered?]
  options := g.options.trans h.options
  hostRequests := g.hostRequests.trans h.hostRequests
  tabled := g.tabled

private theorem Replayed.of_rebound (h : Rebound s t) : Replayed s [] t := .of_installs h (.refl h.tabled)

theorem total_resetModules : Total resetModules := by
  refine .read fun s => .bind (.forM (fun _ => total_invalidate _) _) fun _ => .bind (.modify _) fun _ =>
    .forM (fun name => .read fun t => .ite ?_ (.pure _)) _
  exact .bind (.modifyGet _) fun _ => .modify _

/-- Loading again installs the standard registrations and then everything that is in the log. -/
theorem replayed_loadAgain (tabled : Tabled s) {clear : Analysis Unit} (total : Total clear)
    (aside : ∀ q, Aside q (after clear q)) :
    Replayed s (standardRegistrations s.options ++ (after (loadAgain clear) s).logged)
        (after (loadAgain clear) s) ∧
      ∀ key, (after (loadAgain clear) s).registered? key =
        held (fun r => r.key = key) (standardRegistrations s.options) (s.registered? key) := by
  let ready := after clear (after resetModules s)
  let standard := after ((standardRegistrations s.options).forM register) ready
  have reset := rebound_resetModules tabled
  have rebound : Rebound s ready := reset.trans (.of_aside (aside _) reset.tabled)
  have run : after (loadAgain clear) s = after installEvery standard := by
    have first : after (loadAgain clear) s = after loadStandard ready := by
      rw [loadAgain, after_seq total_resetModules, after_seq total]
    rw [first, loadStandard, after_read, rebound.options]
    exact after_seq (.forM total_register _) ready
  have registered := installs_registerAll rebound.tabled (standardRegistrations s.options)
  have logged : (after (loadAgain clear) s).logged = standard.logged := by
    rw [run, Session.logged, installEvery, after_read, registrations_installAll]
    rfl
  have again := installs_installEvery registered.tabled
  rw [logged, run]
  refine ⟨.of_installs rebound (registered.trans again), fun key => ?_⟩
  rw [again.registered? fun r hr => registered.tabled.filed.registered?_of_mem hr, registered.log,
    rebound.registered?]

/-- A cell gets its module, and what waits for the name is installed. -/
theorem loaded_loadCell (tabled : Tabled s) (name : String) (r : RefId) {m : Found}
    (there : ∀ v, m = some v → v.index < s.values.size) :
    let found := after (updateRef r fun ref => { ref with module := m, loaded := true }) s
    Rebound s found ∧ Installs found (s.registrationsFor name) (after (loadCell r name m) s) := by
  intro found
  let tell := writeLog .modules ("loaded builtin module " ++ name)
  have loaded : Rebound s found := rebound_updateRef tabled r there
  have told : Aside found (after tell found) := .of_same rfl rfl rfl
  have installed := installs_installFor (told.tabled loaded.tabled) name
  rw [(loaded.trans (.of_aside told loaded.tabled)).registrationsFor] at installed
  exact ⟨loaded, (Installs.of_aside told loaded.tabled).trans installed⟩

/-- What a turn does to the places and to the log. -/
theorem RegistryTurn.replayed {rs : List Registration} (tabled : Tabled s) (turn : RegistryTurn s rs t) :
    Replayed s rs t := by
  cases turn with
  | aside h => exact .of_rebound (.of_aside h tabled)
  | load name r m cell idle there =>
    obtain ⟨loaded, installed⟩ := loaded_loadCell tabled name r there
    exact .of_installs loaded installed
  | settle r idle => exact .of_rebound (rebound_updateRef tabled r (by rintro _ ⟨⟩))

/-- What a move does to the places and to the log. -/
theorem RegistryMove.replayed {removals : Prop} {made rs : List Registration} (tabled : Tabled s)
    (move : RegistryMove removals s made rs t) : Replayed s rs t := by
  cases move with
  | turn h => exact h.replayed tabled
  | register r => exact .of_installs (.refl tabled) (installs_register tabled r)
  | bindModule name m there =>
    have bound := (rebound_setModule tabled name there).1
    have installed := installs_installFor bound.tabled name
    rw [bound.registrationsFor] at installed
    rw [after_bindModule]
    exact .of_installs bound installed
  | installFor name => exact .of_installs (.refl tabled) (installs_installFor tabled name)
  | installEvery => exact .of_installs (.refl tabled) (installs_installEvery tabled)
  | loadAgain clear total aside => exact (replayed_loadAgain tabled total aside).1
  | removeModule allowed e => exact .of_rebound (rebound_removeModule tabled e)

/-- A registration that comes to be meant for another module is installed in the same turn. -/
theorem RegistryTurn.covers {rs : List Registration} (tabled : Tabled s) (turn : RegistryTurn s rs t)
    {r : Registration} (hr : r ∈ s.logged) : t.targetOf? r = s.targetOf? r ∨ r ∈ rs := by
  cases turn with
  | aside h => exact .inl ((h.sameModules tabled).targetOf? r)
  | load name q m cell idle there =>
    have installed := (loaded_loadCell tabled name q there).2
    have bound := sameBut_updateRef tabled cell fun ref => { ref with module := m, loaded := true }
    refine (target_or_waits bound tabled.filed hr).imp_left fun target => ?_
    exact (installed.same.targetOf? r).trans target
  | settle q idle => exact .inl ((sameModules_settle idle).targetOf? r)

/-- A registration that comes to be meant for another module is installed again in the same move. -/
theorem RegistryMove.covers {made rs : List Registration} (tabled : Tabled s)
    (move : RegistryMove False s made rs t) {r : Registration} (hr : r ∈ s.logged) :
    t.targetOf? r = s.targetOf? r ∨ ∃ other ∈ rs, other.key = r.key := by
  cases move with
  | turn h => exact (h.covers tabled hr).imp_right fun waits => ⟨r, waits, rfl⟩
  | register other => exact .inl ((installs_register tabled other).same.targetOf? r)
  | bindModule name m there =>
    obtain ⟨bound, same⟩ := rebound_setModule tabled name there
    refine (target_or_waits same tabled.filed hr).imp (fun target => ?_) fun waits => ⟨r, waits, rfl⟩
    rw [after_bindModule]
    exact ((installs_installFor bound.tabled name).same.targetOf? r).trans target
  | installFor name => exact .inl ((installs_installFor tabled name).same.targetOf? r)
  | installEvery => exact .inl ((installs_installEvery tabled).same.targetOf? r)
  | loadAgain clear total aside =>
    have replayed := (replayed_loadAgain tabled total aside).1
    have found : ((after (Session.loadAgain clear) s).registered? r.key).isSome = true := by
      rw [replayed.log]
      exact isSome_held (.inl (by rw [tabled.filed.registered?_of_mem hr]; rfl))
    obtain ⟨specialization, hs⟩ := Option.isSome_iff_exists.1 found
    exact .inr ⟨_, List.mem_append_right _ (replayed.tabled.filed.mem_of_registered? hs), rfl⟩
  | removeModule allowed e => exact allowed.elim

/-- The log holds what was registered last for each function. -/
theorem RegistryMove.registered? {removals : Prop} {made rs : List Registration} (tabled : Tabled s)
    (move : RegistryMove removals s made rs t) (key : String × String) :
    t.registered? key = held (fun r => r.key = key) made (s.registered? key) := by
  have replayed := move.replayed tabled
  -- What is installed again was in the log before.
  have again : (∀ r ∈ rs, r ∈ s.logged) → t.registered? key = s.registered? key := by
    intro logged
    rw [replayed.log]
    refine held_eq_before fun r hr hk => ?_
    rw [← hk, tabled.filed.registered?_of_mem (logged r hr)]
  cases move with
  | register r => exact replayed.log key
  | loadAgain clear total aside => exact (replayed_loadAgain tabled total aside).2 key
  | installEvery => exact again fun r hr => hr
  | bindModule | installFor => exact again fun r hr => registrationsFor_subset hr
  | turn h =>
    cases h with
    | load => exact again fun r hr => registrationsFor_subset hr
    | aside | settle => exact again nofun
  | removeModule => exact again nofun

namespace Course

variable {removals : Prop} {made more : List Registration}

theorem single {rs : List Registration} (move : RegistryMove removals s made rs t) :
    Course removals s made t := .tail .refl move

theorem trans (h : Course removals s made t) (g : Course removals t more q) :
    Course removals s (made ++ more) q := by
  induction g with
  | refl => simpa using h
  | tail _ last ih =>
    rw [← List.append_assoc]
    exact .tail ih last

theorem tabled (course : Course removals s made t) (tabled : Tabled s) : Tabled t := by
  induction course with
  | refl => exact tabled
  | tail _ move ih => exact (move.replayed ih).tabled

theorem options (course : Course removals s made t) (tabled : Tabled s) :
    t.options = s.options ∧ t.hostRequests = s.hostRequests := by
  induction course with
  | refl => exact ⟨rfl, rfl⟩
  | tail before move ih =>
    have replayed := move.replayed (before.tabled tabled)
    exact ⟨replayed.options.trans ih.1, replayed.hostRequests.trans ih.2⟩

/-- The log holds what was registered last for each function. -/
theorem registered? (course : Course removals s made t) (tabled : Tabled s) (key : String × String) :
    t.registered? key = held (fun r => r.key = key) made (s.registered? key) := by
  induction course with
  | refl => rfl
  | tail before move ih =>
    rw [held_append, ← ih, move.registered? (before.tabled tabled)]

end Course

end Typeflow.Session
