import Typeflow.Proofs.EveryBody
import Typeflow.Proofs.Growth
import Typeflow.Proofs.Headed
import Typeflow.Proofs.Rerun
import Typeflow.Proofs.Wakeup

/-! What the analysis of a module anew changes. The names of the module go, and its own unit and all that
read them are run again. The types are as before unless a turn finds more than there was, or what an
earlier turn found is not found again. -/
namespace Typeflow.Session

/-- The types in a place, of which there are none without a record. -/
def held (s : Session) (place : Place) : WithTop (Finset ValueId) :=
  ((s.recordAt? place).map fun x => (s.types x).members).getD ⊥

/-- Every place holds no more than in the other session. -/
def Below (s t : Session) : Prop := ∀ place, s.held place ≤ t.held place

/-- Where a record of `p` is in its place in `s`, the place holds in `t` what it holds in `s`. -/
def GivesBack (p t s : Session) : Prop :=
  ∀ place, s.recordAt? place = p.recordAt? place → s.held place ≤ t.held place

/-- Names may have gone, but what is still there is as it was. -/
def Thins (s t : Session) : Prop := Unchanged t s

section Held

variable {p s t : Session} {place : Place}

theorem held_of_some {x : VarId} (h : s.recordAt? place = some x) :
    s.held place = (s.types x).members := by
  simp [held, h]

theorem held_of_none (h : s.recordAt? place = none) : s.held place = ⊥ := by
  simp [held, h]

namespace Thins

variable {r : Session}

theorem of_eq (values : t.values = s.values) (scopes : t.scopes = s.scopes)
    (records : t.records = s.records) : Thins s t :=
  Unchanged.of_eq values.symm scopes.symm records.symm

theorem of_bookkeeping (h : Bookkeeping s t) : Thins s t := of_eq h.values h.scopes h.records

theorem trans (h : Thins s t) (g : Thins t r) : Thins s r := Unchanged.trans g h

theorem held_le (h : Thins s t) (place : Place) : t.held place ≤ s.held place := by
  cases ht : t.recordAt? place with
  | none =>
    rw [held_of_none ht]
    exact bot_le
  | some x =>
    rw [held_of_some ht, held_of_some (h.places place x ht), h.types]

theorem below (h : Thins s t) (below : s.Below p) : t.Below p :=
  fun place => le_trans (h.held_le place) (below place)

private theorem givesBack (h : Thins s r) (back : GivesBack p t s) : GivesBack p t r := by
  intro place same
  cases hr : r.recordAt? place with
  | none =>
    rw [held_of_none hr]
    exact bot_le
  | some x =>
    have before := h.places place x hr
    exact le_trans (h.held_le place) (back place (before.trans (hr.symm.trans same)))

theorem enqueue (u : UnitId) (at_ : QueueEnd) : Thins s (after (enqueue u at_) s) := by
  have queues := queues_enqueue u at_ s
  exact of_eq (by rw [queues.frame]) (by rw [queues.frame]) (by rw [queues.frame])

theorem clearModule (m : ValueId) : Thins s (after (clearModule m) s) := by
  rcases after_clearModule m s with ends | ⟨q, r, -, told, ends⟩ <;> rw [ends]
  · exact of_eq rfl rfl rfl
  · have forms : (r.withoutNames q.scope).form = s.form := by
      rw [told.frame]
      rfl
    have scopes : r.scopes = s.scopes := by rw [told.frame]
    refine ⟨fun x => (told.types x).symm, fun place x hx => ?_⟩
    cases place with
    | part v part => rwa [recordAt?, forms] at hx
    | name c name =>
      have look : (r.withoutNames q.scope).scope c =
          if c = q.scope ∧ q.scope.index < r.scopes.size then { r.scope q.scope with names := {} }
          else r.scope c := by
        simp only [withoutNames, Session.scope, getD_setIfInBounds, ScopeId.index_inj]
      rw [recordAt?, findName?, look] at hx
      split at hx
      · cases hx
      · rwa [scope, scopes] at hx

/-- Modules lose their names when they are queued, but no name gets other types. -/
theorem enqueueEntry (e : EntryId) : Thins s (after (enqueueEntry e) s) := by
  rcases after_enqueueEntry e s with ends | ⟨u, -, ends⟩ <;> rw [ends]
  · exact of_eq rfl rfl rfl
  · have versioned : Thins s (s.withVersion e) := of_eq rfl rfl rfl
    exact (versioned.trans (clearModule _)).trans (enqueue u .back)

end Thins

end Held

section Leaves

variable {P : Session → Prop}

/-- What goes wrong in a run of the queue goes wrong in one of its turns. -/
theorem turn_of_drain (thins : ∀ s t, Thins s t → P s → P t) (c : Cancellation) (stopping : Bool)
    (processed fuel : Nat) (s : Session) (now : P s)
    (gone : ¬ P (after (drain runBody c stopping processed fuel) s)) :
    ∃ turn, .ran turn ∈ drainEvents c stopping processed fuel s ∧ P turn.before ∧ ¬ P turn.after := by
  have popped : ∀ (s : Session) (queue : WorkQueue), Thins s { s with queue } :=
    fun _ _ => .of_eq rfl rfl rfl
  have begun : ∀ (s : Session) (job : Job) (queue : WorkQueue), Thins s (s.begun queue job.unit) :=
    fun s job queue => (popped s queue).trans (.of_bookkeeping (Sane.bookkeeping_begun queue job.unit))
  revert now gone
  refine drain_induct c
    (motive := fun s es t => P s → ¬ P t → ∃ turn, .ran turn ∈ es ∧ P turn.before ∧ ¬ P turn.after)
    (fun s now gone => absurd now gone) ?_ ?_ ?_ ?_ stopping processed fuel s
  · intro s t books now gone
    have emptied : Thins s t := (popped s {}).trans (.of_bookkeeping books)
    exact absurd (thins s t emptied now) gone
  · intro s t es job queue _ _ rest now gone
    exact rest (thins _ _ (popped s queue) now) gone
  · intro s job queue _ _ now gone
    exact ⟨_, List.mem_singleton_self _, thins _ _ (begun s job queue) now, gone⟩
  · intro s r t es job queue _ _ books rest now gone
    by_cases kept : P (after (runBody job.unit) (s.begun queue job.unit))
    · obtain ⟨turn, ran, fails⟩ := rest (thins _ _ (.of_bookkeeping books) kept) gone
      exact ⟨turn, List.mem_cons_of_mem _ ran, fails⟩
    · exact ⟨_, List.mem_cons_self, thins _ _ (begun s job queue) now, kept⟩

private theorem turn_of_run (thins : ∀ s t, Thins s t → P s → P t) {c : Cancellation} {s : Session}
    (now : P s) (gone : ¬ P (after (analyzeQueued c) s)) :
    ∃ turn, .ran turn ∈ (Operation.analyzeQueued c).events s ∧ P turn.before ∧ ¬ P turn.after := by
  refine turn_of_drain thins c _ _ _ s now fun kept => gone ?_
  exact thins _ _ (.of_bookkeeping (bookkeeping_analyzeQueued c s)) kept

/-- Whether an operation runs what waits. -/
def Operation.runs : Operation → Bool
  | analyzeQueued _ | analyzeEntry _ _ => true
  | _ => false

/-- What goes wrong in a history goes wrong in a turn or in an operation that runs nothing. -/
theorem turn_of_history (thins : ∀ s t, Thins s t → P s → P t) {ops : List Operation} {s : Session}
    (now : P s) (gone : ¬ P (afterAll ops s)) :
    (∃ turn, .ran turn ∈ eventsOf ops s ∧ P turn.before ∧ ¬ P turn.after) ∨
      ∃ pre o post, ops = pre ++ o :: post ∧ o.runs = false ∧
        P (afterAll pre s) ∧ ¬ P (after o.run (afterAll pre s)) := by
  induction ops generalizing s with
  | nil => exact absurd now gone
  | cons o rest ih =>
    by_cases kept : P (after o.run s)
    · rcases ih kept gone with ⟨turn, ran, fails⟩ | ⟨pre, other, post, split, fails⟩
      · exact .inl ⟨turn, List.mem_append_right _ ran, fails⟩
      · exact .inr ⟨o :: pre, other, post, congrArg (o :: ·) split, fails⟩
    · cases o with
      | analyzeQueued c =>
        rw [Operation.run, after_ignore] at kept
        obtain ⟨turn, ran, fails⟩ := turn_of_run thins now kept
        exact .inl ⟨turn, List.mem_append_left _ ran, fails⟩
      | analyzeEntry e c =>
        rw [Operation.run, Operation.after_analyzeEntry] at kept
        obtain ⟨turn, ran, fails⟩ := turn_of_run thins (thins _ _ (.enqueueEntry e) now) kept
        exact .inl ⟨turn, List.mem_append_left _ ran, fails⟩
      | _ => exact .inr ⟨[], _, rest, rfl, rfl, now, kept⟩

end Leaves

/-- A unit that may run waits once a module is queued that it runs or has read a name of. -/
theorem waits_enqueueEntry {s : Session} (hs : Sane s) {e : EntryId} {head u : UnitId}
    (there : (s.entry e).removed = false) (heads : (s.entry e).unit = some head)
    (alive : s.isAlive u = true)
    (reads : u = head ∨
      ∃ name x, s.findName? (s.moduleScopeOf e) name = some x ∧ u ∈ (s.var x).readers) :
    let q := after (enqueueEntry e) s
    q.job u ∈ q.queue.jobs := by
  intro q
  have inRange : e.index < s.entries.size := Nat.lt_of_not_le fun h => by
    rw [entry_of_le h] at heads
    cases heads
  obtain ⟨c, module⟩ := hs.coherent.modules e inRange
  have form : s.form (s.entry e).module = .module ⟨e, c⟩ := by
    cases hf : s.form (s.entry e).module <;> rw [hf] at module <;> cases module
    rfl
  have scope : s.moduleScopeOf e = c := Coherent.moduleScopeOf_eq module
  obtain ⟨t, told, cleared⟩ := clearModule_of_form (s := s.withVersion e) form
  have queues := queues_enqueue head .back (t.withoutNames c)
  have ends : q = after (enqueue head .back) (t.withoutNames c) := by
    rw [← cleared]
    exact enqueueEntry_of_unit there heads
  rw [← ends] at queues
  have job : q.job u = s.job u := (queues.job u).trans (told.job u)
  have aliveNow : (t.withoutNames c).isAlive u = true := (told.isAlive u).trans alive
  have sane : Sane q := hs.moves (.of_stepwise (.enqueueEntry e) s)
  refine sane.coherent.mem_of_holds ?_ ?_
  · rw [queues.isAlive]
    exact aliveNow
  · rcases reads with rfl | ⟨name, x, found, reader⟩
    · rw [queues.job]
      exact queues.held u (List.mem_singleton_self u) aliveNow
    · rw [scope] at found
      have named : x ∈ (s.scope c).names.values := NameMap.mem_values_of_find? found
      rw [job]
      exact queues.holds (told.held x named u reader alive)

/-- No scope is made where nothing may be defined. -/
theorem scopes_of_steps {s t : Session} (hs : Sane s) (h : Steps noLicence s t) :
    t.scopes.size = s.scopes.size := by
  have sound : noLicence.Sound s := fun _ _ licensed => False.elim licensed
  refine hs.steps_induct (P := fun t => t.scopes.size = s.scopes.size) sound h rfl
    fun r q sane _ next size => ?_
  cases next.shape sane.coherent with
  | still hq => exact hq.scopes.trans size
  | starts v e body scope place m code hm _ still =>
    rw [still.scopes, hm.scopes, size]
  | defines u body licensed hq => exact False.elim licensed

/-- In a new session no name has a record, and values keep those that they have. -/
theorem givesBack_create {options : Options} {host : Host} {hostRequests : List Request}
    {s p t : Session} (made : create options host hostRequests = .ok s) (grows : Grows s t) :
    GivesBack p t s := by
  have size := scopes_of_steps (sane_blank options host hostRequests) (steps_create made)
  intro place same
  cases hs : s.recordAt? place with
  | none =>
    rw [held_of_none hs]
    exact bot_le
  | some x =>
    cases place with
    | name c name =>
      have nowhere : s.scopes.size ≤ c.index := by
        rw [size]
        exact Nat.zero_le _
      rw [recordAt?, findName?, scope_of_le nowhere] at hs
      cases hs
    | part v part =>
      have kept : t.recordAt? (.part v part) = some x := grows.parts v part x hs
      rw [held_of_some hs, held_of_some kept]
      exact grows.types x

theorem headed_blank (options : Options) (host : Host) (hostRequests : List Request) (e : EntryId) :
    Headed (blank options host hostRequests) e := by
  intro _ current
  cases current

private theorem entered_of_analyzeEntry {c : Cancellation} {e : EntryId} {p t : Session}
    (again : analyzeEntry e c p = .ok () t) :
    ∃ n, analyzeQueued c (after (enqueueEntry e) p) = .ok n t := by
  obtain ⟨⟨⟩, q, entered, rest⟩ := bind_eq_ok again
  obtain ⟨n, r, run, close⟩ := bind_eq_ok rest
  cases close
  rw [after_of_ok entered]
  exact ⟨n, run⟩

section Again

variable {s p t : Session} {es : List Event} {e : EntryId}

/-- The unit of a module that is analysed anew is run to its end, and so is every other unit that may
run and read a name of the module in its last turn. -/
theorem turn_of_reader {head u : UnitId} (start : Sane s) (whole : Moves s es p)
    (idle : p.queue.jobs = []) (again : analyzeEntry e .never p = .ok () t)
    (there : (p.entry e).removed = false) (heads : (p.entry e).unit = some head)
    (alive : p.isAlive u = true)
    (reads : u = head ∨ ∃ (turn : Turn) (name : String) (x : VarId) (types : ValueSet),
      turn.unit = u ∧ turn.IsLast es ∧ turn.Reads (.name (p.moduleScopeOf e) name) x types) :
    ∃ turn, .ran turn ∈ (Operation.analyzeEntry e .never).events p ∧ turn.unit = u ∧
      turn.completed = true := by
  obtain ⟨n, run⟩ := entered_of_analyzeEntry again
  have sane : Sane p := start.moves whole
  let q := after (enqueueEntry e) p
  have waits : q.job u ∈ q.queue.jobs := by
    refine waits_enqueueEntry sane there heads alive ?_
    rcases reads with same | ⟨turn, name, x, types, rfl, last, reads⟩
    · exact .inl same
    · rcases whole.heeds start last reads alive with waits | depends
      · have mem := sane.coherent.mem_of_holds alive waits
        rw [idle] at mem
        cases mem
      · exact .inr ⟨name, x, depends.stored, depends.reader⟩
  have saneQ : Sane q := sane.moves (.of_stepwise (.enqueueEntry e) p)
  obtain ⟨turn, ran, unit⟩ := turn_of_analyzeQueued saneQ waits run
  exact ⟨turn, ran, unit, completed_of_analyzeQueued run ran⟩

/-- More is held only if some turn adds to it. -/
theorem turn_of_more (again : analyzeEntry e .never p = .ok () t) (more : ¬ t.Below p) :
    ∃ turn, .ran turn ∈ (Operation.analyzeEntry e .never).events p ∧ turn.before.Below p ∧
      ¬ turn.after.Below p := by
  obtain ⟨n, run⟩ := entered_of_analyzeEntry again
  have same : (after (enqueueEntry e) p).Below p := (Thins.enqueueEntry e).below fun _ => le_rfl
  refine turn_of_run (P := (Below · p)) (fun _ _ thins => thins.below) same ?_
  rwa [after_of_ok run]

/-- Less is held only if something found earlier is not found again. -/
theorem turn_of_less {ops : List Operation} {n : Nat} (first : GivesBack p t s)
    (ends : analyzeQueued .never (afterAll ops s) = .ok n p) (less : ¬ p.Below t) :
    (∃ turn, .ran turn ∈ eventsOf (ops ++ [.analyzeQueued .never]) s ∧
        GivesBack p t turn.before ∧ ¬ GivesBack p t turn.after) ∨
      ∃ pre o post, ops = pre ++ o :: post ∧ o.runs = false ∧
        GivesBack p t (afterAll pre s) ∧ ¬ GivesBack p t (after o.run (afterAll pre s)) := by
  have thins : ∀ r q : Session, Thins r q → GivesBack p t r → GivesBack p t q :=
    fun _ _ h back => h.givesBack back
  rw [eventsOf_append]
  by_cases kept : GivesBack p t (afterAll ops s)
  · have gone : ¬ GivesBack p t (after (analyzeQueued .never) (afterAll ops s)) := by
      rw [after_of_ok ends]
      exact fun back => less fun place => back place rfl
    obtain ⟨turn, ran, fails⟩ := turn_of_run thins kept gone
    refine .inl ⟨turn, List.mem_append_right _ ?_, fails⟩
    exact List.mem_append_left _ ran
  · rcases turn_of_history thins first kept with ⟨turn, ran, fails⟩ | operation
    · exact .inl ⟨turn, List.mem_append_left _ ran, fails⟩
    · exact .inr operation

end Again

/-- After a run of the queue that is not cancelled and ends normally, let a module be analysed anew to
the end. Its unit and all units that read names of it in their last turns are run, and in the end every
unit sees what it read in its last turn. No place loses types unless it has lost its record, and all
hold the same types as before, unless a turn adds to what was held though it began with no more, or
what some earlier turn or operation found is not there again though all that it began with is. -/
theorem reanalysis_is_stable {options : Options} {host : Host} {hostRequests : List Request}
    {s p t : Session} (made : create options host hostRequests = .ok s) {ops : List Operation}
    (fits : Fitting ops s) {n : Nat} (ends : analyzeQueued .never (afterAll ops s) = .ok n p)
    {e : EntryId} (again : analyzeEntry e .never p = .ok () t) :
    let earlier := eventsOf (ops ++ [.analyzeQueued .never]) s
    let later := (Operation.analyzeEntry e .never).events p
    ((p.entry e).removed = false → (p.entry e).tree.isSome = true →
      ∃ head, (p.entry e).unit = some head ∧ p.isAlive head = true ∧
        ∀ u, p.isAlive u = true →
          (u = head ∨ ∃ (turn : Turn) (name : String) (x : VarId) (types : ValueSet),
            turn.unit = u ∧ turn.IsLast earlier ∧
              turn.Reads (.name (p.moduleScopeOf e) name) x types) →
          ∃ turn, .ran turn ∈ later ∧ turn.unit = u ∧ turn.completed = true) ∧
    (∀ turn : Turn, turn.IsLast (earlier ++ later) → t.isAlive turn.unit = true → turn.Sees t) ∧
    (∀ place x, p.recordAt? place = some x → t.recordAt? place = some x →
      p.held place ≤ t.held place) ∧
    ((∀ place, t.held place = p.held place) ∨
      (∃ turn, .ran turn ∈ later ∧ turn.before.Below p ∧ ¬ turn.after.Below p) ∨
      (∃ turn, .ran turn ∈ earlier ∧ GivesBack p t turn.before ∧ ¬ GivesBack p t turn.after) ∨
      ∃ pre o post, ops = pre ++ o :: post ∧ o.runs = false ∧
        GivesBack p t (afterAll pre s) ∧ ¬ GivesBack p t (after o.run (afterAll pre s))) := by
  intro earlier later
  have empty := sane_blank options host hostRequests
  have creation := moves_create made
  have start : Sane s := empty.moves creation
  have whole : Moves s earlier p := by
    have fitsAll : Fitting (ops ++ [.analyzeQueued .never]) s := by
      refine (fitting_append _ _ _).2 ⟨fits, ?_, trivial⟩
      intro _ h
      cases h
    have finished : afterAll (ops ++ [.analyzeQueued .never]) s = p := by
      rw [afterAll_append]
      exact (after_ignore _ _).trans (after_of_ok ends)
    have moves := moves_of_fitting _ start fitsAll
    rwa [finished] at moves
  have reanalysis : Moves p later t := by
    have moves := Operation.moves_analyzeEntry e .never p
    rwa [after_of_ok again] at moves
  have grows : Grows p t := .of_moves reanalysis
  obtain ⟨m, run⟩ := entered_of_analyzeEntry again
  refine ⟨fun there current => ?_, fun turn last alive => ?_, fun place x before after => ?_, ?_⟩
  · have engaged := engaged_blank options host hostRequests
    have headed := (headed_blank options host hostRequests e).moves engaged empty creation
    obtain ⟨head, heads, alive, -⟩ :=
      headed.moves (engaged.moves empty creation) start whole there current
    exact ⟨head, heads, alive, fun u living reads =>
      turn_of_reader start whole (idle_of_analyzeQueued ends) again there heads living reads⟩
  · exact (whole.trans reanalysis).sees start last alive (idle_of_analyzeQueued run)
  · rw [held_of_some before, held_of_some after]
    exact grows.types x
  · by_cases more : t.Below p
    · by_cases less : p.Below t
      · exact .inl fun place => le_antisymm (more place) (less place)
      · have first : GivesBack p t s := givesBack_create made ((Grows.of_moves whole).trans grows)
        exact .inr (.inr (turn_of_less first ends less))
    · exact .inr (.inl (turn_of_more again more))

/-- A module without names, and one that imports it and gives it an attribute. -/
def assigningModules : List Operation :=
  let a : Tree := { mark := {}, body := [.pass {}] }
  let assign : Stmt :=
    .assign {} [.attribute {} (.name {} "a") "y"] (.literal {} (.int 1))
  let b : Tree := { mark := {}, body := [.importNames {} [⟨"a", ""⟩], assign] }
  [.addModule "a" "/a.py", .addModule "b" "/b.py", .replaceTree ⟨0⟩ a, .replaceTree ⟨1⟩ b,
    .enqueueEntry ⟨0⟩, .enqueueEntry ⟨1⟩]

/-- When the module that assigns the attribute is analysed anew, it is run again, and the attribute keeps
its types. -/
theorem reanalysis_is_stable_assigning :
    let p := analysed assigningModules
    let t := after (analyzeEntry ⟨1⟩ .never) p
    let y : Place := .name (p.moduleScopeOf ⟨0⟩) "y"
    p.held y ≠ ⊥ ∧ p.held y ≤ t.held y ∧
      ∃ turn, .ran turn ∈ (Operation.analyzeEntry ⟨1⟩ .never).events p ∧ turn.unit = ⟨1⟩ ∧
        turn.completed = true := by
  intro p t y
  obtain ⟨fits, went, goes, stays, current, alive, heads, bound, kept⟩ :
      Fitting assigningModules bare ∧
      succeeds (analyzeQueued .never) (afterAll assigningModules bare) = true ∧
      succeeds (analyzeEntry ⟨1⟩ .never) p = true ∧ (p.entry ⟨1⟩).removed = false ∧
      (p.entry ⟨1⟩).tree.isSome = true ∧ p.isAlive ⟨1⟩ = true ∧
      (p.entry ⟨1⟩).unit = some ⟨1⟩ ∧ p.held y ≠ ⊥ ∧ t.recordAt? y = p.recordAt? y := by
    decide +kernel
  obtain ⟨n, ends⟩ := succeeded went
  obtain ⟨⟨⟩, again⟩ := succeeded goes
  obtain ⟨runs, -, keeps, -⟩ := reanalysis_is_stable create_bare fits ends again
  refine ⟨bound, ?_, ?_⟩
  · cases stored : p.recordAt? y with
    | none => exact absurd (held_of_none stored) bound
    | some x => exact keeps y x stored (kept.trans stored)
  · obtain ⟨head, headed, -, again⟩ := runs stays current
    exact again ⟨1⟩ alive (.inl (Option.some.inj (heads.symm.trans headed)))

/-- Whoever assigns an attribute of a module does not read a name of it, so nothing gives the attribute
back when the module itself is analysed anew. -/
theorem reanalysis_loses_attribute :
    let p := analysed assigningModules
    let t := after (analyzeEntry ⟨0⟩ .never) p
    let y : Place := .name (p.moduleScopeOf ⟨0⟩) "y"
    Fitting assigningModules bare ∧
      succeeds (analyzeQueued .never) (afterAll assigningModules bare) = true ∧
      (p.entry ⟨0⟩).removed = false ∧ (p.entry ⟨0⟩).tree.isSome = true ∧
      succeeds (analyzeEntry ⟨0⟩ .never) p = true ∧ t.held y ≠ p.held y := by
  decide +kernel

end Typeflow.Session
