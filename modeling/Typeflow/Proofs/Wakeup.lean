import Typeflow.Proofs.Attendance
import Typeflow.Proofs.History

/-! A unit that is queued is run. No other unit stands in its place on the queue, and it waits until its
turn comes. -/
namespace Typeflow.Session

/-- Evaluation takes no job off the queue. -/
theorem Step.kept {L : Licence} {s t : Session} (hc : Coherent s) (h : Step L s t) {job : Job}
    (waits : job ∈ s.queue.jobs) : job ∈ t.queue.jobs := by
  cases h.shape hc with
  | still ht => exact ht.kept job waits
  | starts v e body scope place r code hr queued still =>
    apply still.kept job
    rw [hr.queue]
    exact waits
  | defines u body licensed ht =>
    rw [ht.queue]
    exact waits

theorem Steps.kept {L : Licence} {s t : Session} (hs : Sane s) (hl : L.Sound s) (h : Steps L s t)
    {job : Job} (waits : job ∈ s.queue.jobs) : job ∈ t.queue.jobs :=
  hs.steps_induct (P := fun t => job ∈ t.queue.jobs) hl h waits
    fun _ _ sane _ next waits => next.kept sane.coherent waits

/-- A job that waits gets its turn in a run that nobody cancels and that ends normally. -/
theorem turn_of_waiting {processed fuel n : Nat} {s t : Session} {job : Job} (hs : Sane s)
    (waits : job ∈ s.queue.jobs)
    (ends : drain runBody .never false processed fuel s = .ok n t) :
    ∃ turn, .ran turn ∈ drainEvents .never false processed fuel s ∧ turn.unit = job.unit := by
  induction fuel generalizing processed s with
  | zero => cases ends
  | succ fuel ih =>
    cases hp : s.queue.pop? with
    | none =>
      rw [WorkQueue.pop?_eq_none_iff.1 hp] at waits
      cases waits
    | some popped =>
      obtain ⟨first, queue⟩ := popped
      have jobs := Sane.of_pop hp
      -- only units that may run wait, so the first of them is not passed over
      have alive : s.isAlive first.unit = true := by
        have : first ∈ s.queue.jobs := by
          rw [jobs]
          exact List.mem_cons_self
        exact (hs.coherent.waiting first this).1
      rw [drain_turn hp alive] at ends
      rcases turnAction_run .never processed first.unit (s.begun queue first.unit) with
        ⟨e, -, failed⟩ | ⟨asked, r, -, went, books⟩
      · rw [bind_of_error failed] at ends
        cases ends
      · rw [bind_of_ok went, asked_never went] at ends
        rw [drainEvents_ok hp alive went, asked_never went]
        by_cases same : first.unit = job.unit
        · exact ⟨_, List.mem_cons_self, same⟩
        · have later : job ∈ queue.jobs := by
            rw [jobs] at waits
            rcases List.mem_cons.1 waits with rfl | later
            · exact absurd rfl same
            · exact later
          have start := hs.begun hp
          have sound := start.licence_sound alive
          have steps := steps_runBody first.unit (s.begun queue first.unit)
          have still : job ∈ r.queue.jobs := by
            rw [books.queue]
            exact steps.kept start sound later
          obtain ⟨turn, ran, unit⟩ := ih ((start.steps sound steps).1.bookkeeping books) still ends
          exact ⟨turn, List.mem_cons_of_mem _ ran, unit⟩

theorem turn_of_analyzeQueued {n : Nat} {s t : Session} {job : Job} (hs : Sane s)
    (waits : job ∈ s.queue.jobs) (ends : analyzeQueued .never s = .ok n t) :
    ∃ turn, .ran turn ∈ (Operation.analyzeQueued .never).events s ∧ turn.unit = job.unit := by
  obtain ⟨processed, r, drained, -⟩ := drained_of_analyzeQueued ends
  exact turn_of_waiting hs waits drained

/-- In a move a unit that waits goes on waiting, or it is served or retired. -/
theorem Move.waits {s t : Session} {es fs : List Event} {u : UnitId} (hs : Sane s)
    (hu : u.index < s.units.size) (h : Move s fs t)
    (waits : s.isAlive u = true → Served es u ∨ s.queue.holds (s.job u) = true)
    (alive : t.isAlive u = true) : Served (es ++ fs) u ∨ t.queue.holds (t.job u) = true := by
  have was := (Ages.of_move hs h).wasAlive hu alive
  rcases waits was with served | held
  · exact .inl served.append
  · rcases h.events with rfl | ⟨event, rfl⟩
    · have minds := Minds.of_move hs hu h (fun _ ran => by cases ran) fun _ dropped => by cases dropped
      exact .inr (minds.waits alive held)
    · have last : event ∈ es ++ [event] := List.mem_append_right _ (List.mem_singleton_self _)
      cases event with
      | ran turn =>
        by_cases same : turn.unit = u
        · exact .inl (.inl ⟨turn, last, same⟩)
        · have minds := Minds.of_move hs hu h (fun other ran => ?_) fun _ dropped => ?_
          · exact .inr (minds.waits alive held)
          · cases List.mem_singleton.1 ran
            exact same
          · cases List.mem_singleton.1 dropped
      | dropped units =>
        have mem := hs.coherent.mem_of_holds was held
        cases h with
        | drop => exact .inl (.inr ⟨_, last, List.mem_map.2 ⟨_, mem, rfl⟩⟩)

theorem Moves.waits {s t : Session} {es : List Event} {u : UnitId} (hs : Sane s)
    (h : Moves s es t) (held : s.queue.holds (s.job u) = true) (alive : s.isAlive u = true) :
    t.isAlive u = true → Served es u ∨ t.queue.holds (t.job u) = true := by
  have hu := index_lt_of_isAlive alive
  have both : u.index < t.units.size ∧
      (t.isAlive u = true → Served es u ∨ t.queue.holds (t.job u) = true) :=
    hs.moves_induct
      (P := fun es t => u.index < t.units.size ∧
        (t.isAlive u = true → Served es u ∨ t.queue.holds (t.job u) = true))
      h ⟨hu, fun _ => .inr held⟩ fun es fs r q sane next ⟨range, waits⟩ =>
        ⟨Nat.lt_of_lt_of_le range (Ages.of_move sane next).units, next.waits sane range waits⟩
  exact both.2

/-- A turn of a run that ends normally is complete. -/
theorem completed_of_analyzeQueued {n : Nat} {s t : Session} {turn : Turn}
    (ends : analyzeQueued .never s = .ok n t)
    (ran : .ran turn ∈ (Operation.analyzeQueued .never).events s) : turn.completed = true := by
  obtain ⟨processed, r, drained, -⟩ := drained_of_analyzeQueued ends
  exact (drain_ends drained fun units => drainEvents_never 0 drainLimit s units).2 turn ran

/-- After whatever callers do, no retired unit waits and units that may run never share a body. So a unit
that is queued then waits itself, whatever waits already. The next run that nobody cancels and that ends
normally runs it to its end; if other operations come first, it has been retired or served by them, or
that run does so after them. -/
theorem enqueue_is_not_swallowed {options : Options} {host : Host} {hostRequests : List Request}
    {s : Session} (made : create options host hostRequests = .ok s) {ops : List Operation}
    (fits : Fitting ops s) :
    let t := afterAll ops s
    (∀ job ∈ t.queue.jobs, t.isAlive job.unit = true) ∧
    (∀ u w, t.isAlive u = true → t.isAlive w = true → (t.job u).sameBody (t.job w) = true → u = w) ∧
    ∀ u place, t.isAlive u = true →
      let q := after (enqueue u place) t
      q.job u ∈ q.queue.jobs ∧
      (∀ n r, analyzeQueued .never q = .ok n r →
        ∃ turn, .ran turn ∈ (Operation.analyzeQueued .never).events q ∧ turn.unit = u ∧
          turn.completed = true) ∧
      ∀ more, Fitting more q → ∀ n r, analyzeQueued .never (afterAll more q) = .ok n r →
        (∃ turn, .ran turn ∈ (Operation.analyzeQueued .never).events (afterAll more q) ∧
          turn.unit = u ∧ turn.completed = true) ∨
        (afterAll more q).isAlive u = false ∨ Served (eventsOf more q) u := by
  intro t
  have start : Sane s := (sane_blank options host hostRequests).moves (moves_create made)
  have sane : Sane t := start.moves (moves_of_fitting ops start fits)
  refine ⟨fun job hj => (sane.coherent.waiting job hj).1, fun u w hu hw same => ?_,
    fun u place alive => ?_⟩
  · have scope : (t.unit u).scope = (t.unit w).scope := by
      simp only [Job.sameBody, Bool.and_eq_true, decide_eq_true_eq] at same
      exact same.1
    exact sane.coherent.apart u w hu hw scope
  · intro q
    have queues : Queues [u] t q := queues_enqueue u place t
    have queued : Moves t [] q := .of_stepwise (.enqueue u place) t
    have saneQ := sane.moves queued
    have aliveQ : q.isAlive u = true := by rwa [queues.isAlive]
    have held : q.queue.holds (q.job u) = true := by
      rw [queues.job]
      exact queues.held u (List.mem_singleton_self u) alive
    have waits := saneQ.coherent.mem_of_holds aliveQ held
    refine ⟨waits, fun n r ends => ?_, fun more moreFits n r ends => ?_⟩
    · obtain ⟨turn, ran, unit⟩ := turn_of_analyzeQueued saneQ waits ends
      exact ⟨turn, ran, unit, completed_of_analyzeQueued ends ran⟩
    · have later := moves_of_fitting more saneQ moreFits
      cases ha : (afterAll more q).isAlive u with
      | false => exact .inr (.inl rfl)
      | true =>
        rcases later.waits saneQ held aliveQ ha with served | held
        · exact .inr (.inr served)
        · have saneR := saneQ.moves later
          have waits := saneR.coherent.mem_of_holds ha held
          obtain ⟨turn, ran, unit⟩ := turn_of_analyzeQueued saneR waits ends
          exact .inl ⟨turn, ran, unit, completed_of_analyzeQueued ends ran⟩

/-- A module whose tree is replaced while the units of the old one wait. -/
def replacedModule : List Operation :=
  let none : Expr := .literal {} .none
  let first : Tree := { mark := {}, body := [.functionDef {} "f" [] [.ret {} none] []] }
  let second : Tree := { mark := {}, body := [.expr {} none] }
  [.addModule "m" "/m.py", .replaceTree ⟨0⟩ first, .analyzeEntry ⟨0⟩ .never,
    .enqueueUnit ⟨0⟩ .back, .enqueueUnit ⟨1⟩ .back, .replaceTree ⟨0⟩ second, .enqueueEntry ⟨0⟩]

/-- The old units are retired, and the new one is run. -/
theorem enqueue_is_not_swallowed_replaced :
    let t := afterAll replacedModule bare
    let q := after (enqueue ⟨2⟩ .front) t
    t.isAlive ⟨0⟩ = false ∧ t.isAlive ⟨1⟩ = false ∧ q.job ⟨2⟩ ∈ q.queue.jobs ∧
      ∃ turn, .ran turn ∈ (Operation.analyzeQueued .never).events q ∧ turn.unit = ⟨2⟩ ∧
        turn.completed = true := by
  obtain ⟨fits, went, first, second, third⟩ : Fitting replacedModule bare ∧
      succeeds (analyzeQueued .never) (after (enqueue ⟨2⟩ .front) (afterAll replacedModule bare)) = true ∧
      (afterAll replacedModule bare).isAlive ⟨0⟩ = false ∧
      (afterAll replacedModule bare).isAlive ⟨1⟩ = false ∧
      (afterAll replacedModule bare).isAlive ⟨2⟩ = true := by decide +kernel
  obtain ⟨n, ends⟩ := succeeded went
  have queued := (enqueue_is_not_swallowed create_bare fits).2.2 ⟨2⟩ .front third
  exact ⟨first, second, queued.1, queued.2.1 n _ ends⟩

end Typeflow.Session
