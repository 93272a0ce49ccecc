import Typeflow.Proofs.Coherence.Modules
import Typeflow.Proofs.Step.Walk
import Typeflow.Session.Schedule

/-! The life of a session in single moves, among them the turns in which units are run, and the turns
that a run of the queue is made of. -/
namespace Typeflow.Session

variable {α : Type}

def succeeds (m : Analysis α) (s : Session) : Bool :=
  match m s with
  | .ok _ _ => true
  | .error _ _ => false

theorem succeeded {m : Analysis α} {s : Session} (h : succeeds m s = true) :
    ∃ a, m s = .ok a (after m s) := by
  cases hm : m s with
  | ok a t => exact ⟨a, by rw [after_of_ok hm]⟩
  | error e t =>
    rw [succeeds, hm] at h
    cases h

/-- A run of the body of a unit. -/
structure Turn where
  unit : UnitId
  before : Session
  after : Session
  /-- Whether the body was run to its end. -/
  completed : Bool

/-- What happens to units that wait: one is run, or all are dropped because the run is to stop. -/
inductive Event where
  | ran (turn : Turn)
  | dropped (units : List UnitId)

def Event.unit? : Event → Option UnitId
  | .ran turn => some turn.unit
  | .dropped _ => none

def turnOf (u : UnitId) (s : Session) : Turn :=
  ⟨u, s, after (runBody u) s, succeeds (runBody u) s⟩

/-- A session that is about to run a unit which was taken off the queue. -/
def begun (s : Session) (queue : WorkQueue) (u : UnitId) : Session :=
  after (logRun (s.unit u).body.node) { s with queue }

def isBodyNode (s : Session) (n : NodeId) : Prop := ∃ e body, s.hasBody e body ∧ body.node.id = n

/-- Values may be kept only for nodes that have their numbers and are not those of bodies. -/
structure Licence.Apart (L : Licence) (s : Session) : Prop where
  below : ∀ n, L.keep n → n.index < s.nextNode
  keep : ∀ n, L.keep n → ¬ s.isBodyNode n

/-- From outside nothing may be defined. -/
structure Licence.Foreign (L : Licence) (s : Session) : Prop extends L.Apart s where
  define : ∀ u body, ¬ L.define u body

/-- One move in the life of a session, with what happens to units in it. -/
inductive Move (s : Session) : List Event → Session → Prop
  | change {L : Licence} {t : Session} (foreign : L.Foreign s) (h : Steps L s t) : Move s [] t
  | addEntry (name path : String) : Move s [] (s.withEntry name path)
  | observe : Move s [] s.withObserver
  | takeNode : Move s [] { s with nextNode := s.nextNode + 1 }
  | replaceTree (e : EntryId) (tree : Option Tree) (h : e.index < s.entries.size) :
      Move s [] (after (replaceTree e tree) s)
  | removeModule (e : EntryId) : Move s [] (after (removeModule (some e)) s)
  | release : Move s [] (after releaseRetired s)
  | pass (job : Job) (queue : WorkQueue) (h : s.queue.pop? = some (job, queue))
      (dead : s.isAlive job.unit = false) : Move s [] { s with queue }
  | turn (job : Job) (queue : WorkQueue) (h : s.queue.pop? = some (job, queue))
      (alive : s.isAlive job.unit = true) :
      Move s [.ran (turnOf job.unit (s.begun queue job.unit))]
        (after (runBody job.unit) (s.begun queue job.unit))
  | drop : Move s [.dropped (s.queue.jobs.map (·.unit))] { s with queue := {} }

/-- At most one thing happens in a move. -/
theorem Move.events {s t : Session} {es : List Event} (h : Move s es t) :
    es = [] ∨ ∃ event, es = [event] := by
  cases h <;> first | exact .inl rfl | exact .inr ⟨_, rfl⟩

/-- The move in which a unit is run. -/
theorem Move.of_ran {s t : Session} {turn : Turn} (h : Move s [.ran turn] t) :
    ∃ job queue, s.queue.pop? = some (job, queue) ∧ s.isAlive job.unit = true ∧
      turn = turnOf job.unit (s.begun queue job.unit) ∧ t = turn.after := by
  cases h with
  | turn job queue hp alive => exact ⟨job, queue, hp, alive, rfl, rfl⟩

/-- Any number of moves, with all that happens in them. -/
inductive Moves (s : Session) : List Event → Session → Prop
  | refl : Moves s [] s
  | tail {es fs : List Event} {t r : Session} (h : Moves s es t) (last : Move t fs r) :
      Moves s (es ++ fs) r

namespace Moves

variable {s t r : Session} {es fs : List Event}

theorem single (h : Move s es t) : Moves s es t := by
  simpa using Moves.tail .refl h

theorem trans (h : Moves s es t) (g : Moves t fs r) : Moves s (es ++ fs) r := by
  induction g with
  | refl => simpa using h
  | tail _ last ih =>
    rw [← List.append_assoc]
    exact .tail ih last

theorem trans_nil (h : Moves s [] t) (g : Moves t [] r) : Moves s [] r := h.trans g

/-- An invariant of every move is an invariant of a life. -/
theorem induct {P : List Event → Session → Prop}
    (step : ∀ es fs t r, Move t fs r → P es t → P (es ++ fs) r) (h : Moves s es t) (hs : P [] s) :
    P es t := by
  induction h with
  | refl => exact hs
  | tail _ last ih => exact step _ _ _ _ last ih

/-- A life goes through each of the things that happen to units in it. -/
theorem split {pre post : List Event} {event : Event} (h : Moves s es t)
    (hes : es = pre ++ event :: post) : ∃ r q, Moves s pre r ∧ Move r [event] q ∧ Moves q post t := by
  induction h generalizing post with
  | refl => simp at hes
  | @tail es fs t q h last ih =>
    rcases last.events with rfl | ⟨latest, rfl⟩
    · rw [List.append_nil] at hes
      obtain ⟨r, q', before, now, later⟩ := ih hes
      exact ⟨r, q', before, now, by simpa using later.tail last⟩
    · rcases List.eq_nil_or_concat post with rfl | ⟨init, final, rfl⟩
      · obtain ⟨rfl, same⟩ := List.append_inj' hes rfl
        obtain rfl : latest = event := by simpa using same
        exact ⟨t, q, h, last, .refl⟩
      · have shift : es ++ [latest] = (pre ++ event :: init) ++ [final] := by simpa using hes
        obtain ⟨rfl, same⟩ := List.append_inj' shift rfl
        obtain rfl : latest = final := by simpa using same
        obtain ⟨r, q', before, now, later⟩ := ih rfl
        exact ⟨r, q', before, now, by simpa using later.tail last⟩

theorem turn_eq (h : Moves s es t) {turn : Turn} (ran : .ran turn ∈ es) :
    turn = turnOf turn.unit turn.before := by
  obtain ⟨pre, post, rfl⟩ := List.append_of_mem ran
  obtain ⟨r, q, -, now, -⟩ := h.split rfl
  obtain ⟨job, queue, -, -, rfl, -⟩ := now.of_ran
  rfl

end Moves

/-- Changes from outside without values for nodes. -/
theorem noLicence_foreign (s : Session) : noLicence.Foreign s where
  below _ h := h.elim
  keep _ h := h.elim
  define _ _ h := h

theorem Moves.of_stepwise {m : Analysis α} (h : Stepwise noLicence m) (s : Session) :
    Moves s [] (Session.after m s) := .single (.change (noLicence_foreign s) (h s))

def turnAction (run : UnitId → Analysis Unit) (c : Cancellation) (processed : Nat) (u : UnitId) :
    Analysis Bool := do
  run u
  count "units_processed" 1
  reportAfter c (processed + 1)

def closeTurn (c : Cancellation) (processed : Nat) : Analysis Bool := do
  count "units_processed" 1
  reportAfter c (processed + 1)

def closeRun (processed : Nat) : Analysis Nat := do
  if (← get).reportEvery.isSome then report
  return processed

/-- What happens to units while the queue is run. -/
def drainEvents (c : Cancellation) (stopping : Bool) (processed : Nat) : Nat → Session → List Event
  | 0, _ => []
  | fuel + 1, s =>
    if stopping then [.dropped (s.queue.jobs.map (·.unit))]
    else
      match s.queue.pop? with
      | none => []
      | some (job, queue) =>
        if s.isAlive job.unit then
          .ran (turnOf job.unit (s.begun queue job.unit)) ::
            match turnAction runBody c processed job.unit (s.begun queue job.unit) with
            | .ok asked t => drainEvents c asked (processed + 1) fuel t
            | .error _ _ => []
        else drainEvents c false processed fuel { s with queue }

section Drain

variable {c : Cancellation} {processed fuel : Nat} {s : Session} {job : Job} {queue : WorkQueue}

theorem pop_of_none (h : s.queue.pop? = none) : pop s = .ok none s := by
  simp [pop, modifyGet_run, h]

theorem pop_of_some (h : s.queue.pop? = some (job, queue)) :
    pop s = .ok (some job.unit) { s with queue } := by
  simp [pop, modifyGet_run, h]

theorem drain_empty {run : UnitId → Analysis Unit} (h : s.queue.pop? = none) :
    drain run c false processed (fuel + 1) s = .ok processed s := by
  rw [drain, if_neg Bool.false_ne_true]
  exact bind_of_ok (pop_of_none h)

theorem drain_pass {run : UnitId → Analysis Unit} (h : s.queue.pop? = some (job, queue))
    (dead : s.isAlive job.unit = false) :
    drain run c false processed (fuel + 1) s = drain run c false processed fuel { s with queue } := by
  have skip : ({ s with queue } : Session).isAlive job.unit = false := dead
  rw [drain, if_neg Bool.false_ne_true, bind_of_ok (pop_of_some h)]
  simp only [read_run, skip]
  rfl

theorem drain_turn {run : UnitId → Analysis Unit} (h : s.queue.pop? = some (job, queue))
    (alive : s.isAlive job.unit = true) :
    drain run c false processed (fuel + 1) s =
      (turnAction run c processed job.unit >>= fun asked => drain run c asked (processed + 1) fuel)
        (s.begun queue job.unit) := by
  have go : ({ s with queue } : Session).isAlive job.unit = true := alive
  rw [drain, if_neg Bool.false_ne_true, bind_of_ok (pop_of_some h)]
  simp only [turnAction, bind_assoc]
  simp only [read_run, go]
  rfl

theorem stopRun_run (s : Session) : ∃ t, stopRun s = .ok () t ∧ Bookkeeping { s with queue := {} } t := by
  let close (discarded : Nat) : Analysis Unit := do
    count "analysis_cancelled" 1
    writeLog .units ("cancelled, discarded " ++ toString discarded ++ " units")
  have closes : Keeps (close s.queue.size) := .bind (.count _ _) fun _ => .writeLog _ _
  have run : stopRun s = close s.queue.size { s with queue := {} } := rfl
  obtain ⟨⟨⟩, ends⟩ := closes.1 { s with queue := {} }
  exact ⟨_, run.trans ends, closes.2 _⟩

private theorem keeps_report : Keeps report := .modify fun _ => by constructor <;> rfl

private theorem keeps_reportAfter (c : Cancellation) (processed : Nat) : Keeps (reportAfter c processed) := by
  refine .read fun s => ?_
  split
  · exact .pure _
  · exact .ite (.pure _) (.bind keeps_report fun _ => .read fun _ => .pure _)

theorem keeps_closeTurn (c : Cancellation) (processed : Nat) : Keeps (closeTurn c processed) :=
  .bind (.count _ _) fun _ => keeps_reportAfter _ _

private theorem keeps_closeRun (processed : Nat) : Keeps (closeRun processed) :=
  .read fun _ => .ite (.bind keeps_report fun _ => .pure _) (.pure _)

/-- Books are kept after a turn. -/
theorem turnAction_run (c : Cancellation) (processed : Nat) (u : UnitId) (s : Session) :
    (∃ e, succeeds (runBody u) s = false ∧
      turnAction runBody c processed u s = .error e (after (runBody u) s)) ∨
    ∃ asked t, succeeds (runBody u) s = true ∧ turnAction runBody c processed u s = .ok asked t ∧
      Bookkeeping (after (runBody u) s) t := by
  have keeps := keeps_closeTurn c processed
  cases h : runBody u s with
  | error e t =>
    refine .inl ⟨e, by rw [succeeds, h], ?_⟩
    rw [after_of_error h]
    exact bind_of_error h
  | ok a t =>
    obtain ⟨asked, ends⟩ := keeps.1 t
    refine .inr ⟨asked, _, by rw [succeeds, h], (bind_of_ok h).trans ends, ?_⟩
    rw [after_of_ok h]
    exact keeps.2 t

theorem Moves.of_bookkeeping {s t : Session} (h : Bookkeeping s t) : Moves s [] t :=
  .single (.change (noLicence_foreign s) (.single (.bookkeep h)))

private theorem drainEvents_empty (h : s.queue.pop? = none) :
    drainEvents c false processed (fuel + 1) s = [] := by
  simp [drainEvents, h]

theorem drainEvents_pass (h : s.queue.pop? = some (job, queue)) (dead : s.isAlive job.unit = false) :
    drainEvents c false processed (fuel + 1) s = drainEvents c false processed fuel { s with queue } := by
  simp [drainEvents, h, dead]

theorem drainEvents_error (h : s.queue.pop? = some (job, queue)) (alive : s.isAlive job.unit = true)
    {e : Fault} {t : Session}
    (ends : turnAction runBody c processed job.unit (s.begun queue job.unit) = .error e t) :
    drainEvents c false processed (fuel + 1) s = [.ran (turnOf job.unit (s.begun queue job.unit))] := by
  simp [drainEvents, h, alive, ends]

theorem drainEvents_ok (h : s.queue.pop? = some (job, queue)) (alive : s.isAlive job.unit = true)
    {asked : Bool} {t : Session}
    (ends : turnAction runBody c processed job.unit (s.begun queue job.unit) = .ok asked t) :
    drainEvents c false processed (fuel + 1) s =
      .ran (turnOf job.unit (s.begun queue job.unit)) :: drainEvents c asked (processed + 1) fuel t := by
  simp [drainEvents, h, alive, ends]

/-- Induction over a run of the queue: it halts, drops all that waits, passes a dead unit over, ends with
a turn that fails, or goes on after a turn. -/
theorem drain_induct {motive : Session → List Event → Session → Prop} (c : Cancellation)
    (halt : ∀ s, motive s [] s)
    (stop : ∀ s t, Bookkeeping { s with queue := {} } t →
      motive s [.dropped (s.queue.jobs.map (·.unit))] t)
    (pass : ∀ s t es job queue, s.queue.pop? = some (job, queue) → s.isAlive job.unit = false →
      motive { s with queue } es t → motive s es t)
    (fail : ∀ s job queue, s.queue.pop? = some (job, queue) → s.isAlive job.unit = true →
      motive s [.ran (turnOf job.unit (s.begun queue job.unit))]
        (after (runBody job.unit) (s.begun queue job.unit)))
    (turn : ∀ s r t es job queue, s.queue.pop? = some (job, queue) → s.isAlive job.unit = true →
      Bookkeeping (after (runBody job.unit) (s.begun queue job.unit)) r → motive r es t →
        motive s (.ran (turnOf job.unit (s.begun queue job.unit)) :: es) t)
    (stopping : Bool) (processed fuel : Nat) (s : Session) :
    motive s (drainEvents c stopping processed fuel s)
      (after (drain runBody c stopping processed fuel) s) := by
  induction fuel generalizing stopping processed s with
  | zero => exact halt s
  | succ fuel ih =>
    cases stopping with
    | true =>
      obtain ⟨t, ends, books⟩ := stopRun_run s
      have run : drain runBody c true processed (fuel + 1) s = .ok processed t := bind_of_ok ends
      rw [after_of_ok run]
      exact stop s t books
    | false =>
      cases hp : s.queue.pop? with
      | none =>
        rw [after_of_ok (drain_empty hp), drainEvents_empty hp]
        exact halt s
      | some popped =>
        obtain ⟨job, queue⟩ := popped
        cases ha : s.isAlive job.unit with
        | false =>
          rw [after, drain_pass hp ha, ← after, drainEvents_pass hp ha]
          exact pass s _ _ job queue hp ha (ih false processed _)
        | true =>
          rw [after, drain_turn hp ha, ← after]
          rcases turnAction_run c processed job.unit (s.begun queue job.unit) with
            ⟨e, -, failed⟩ | ⟨asked, r, -, went, books⟩
          · rw [after_bind_of_error failed, drainEvents_error hp ha failed]
            exact fail s job queue hp ha
          · rw [after_bind_of_ok went, drainEvents_ok hp ha went]
            exact turn s r _ _ job queue hp ha books (ih asked (processed + 1) r)

/-- What holds from one session to the next all through a run of the queue holds up to its end, and it
holds up to each turn and from the end of the turn on. -/
theorem drain_since {T : Session → Session → Prop} (refl : ∀ s, T s s)
    (trans : ∀ s t r, T s t → T t r → T s r) (c : Cancellation) (stop : ∀ s, T s (after stopRun s))
    (pass : ∀ s job queue, s.queue.pop? = some (job, queue) → s.isAlive job.unit = false →
      T s { s with queue })
    (turn : ∀ s job queue, s.queue.pop? = some (job, queue) → s.isAlive job.unit = true →
      T s (after (runBody job.unit) (s.begun queue job.unit)))
    (close : ∀ processed s, T s (after (closeTurn c processed) s)) (stopping : Bool)
    (processed fuel : Nat) (s : Session) :
    T s (after (drain runBody c stopping processed fuel) s) ∧
      ∀ turn, .ran turn ∈ drainEvents c stopping processed fuel s →
        (∃ r, T s r ∧ Move r [.ran turn] turn.after) ∧
          T turn.after (after (drain runBody c stopping processed fuel) s) := by
  induction fuel generalizing stopping processed s with
  | zero => exact ⟨refl s, fun _ ran => absurd ran List.not_mem_nil⟩
  | succ fuel ih =>
    cases stopping with
    | true =>
      have stops := stop s
      obtain ⟨t, ends, -⟩ := stopRun_run s
      have run : drain runBody c true processed (fuel + 1) s = .ok processed t := bind_of_ok ends
      rw [after_of_ok ends] at stops
      rw [after_of_ok run]
      exact ⟨stops, fun _ ran => by cases List.mem_singleton.1 ran⟩
    | false =>
      cases hp : s.queue.pop? with
      | none =>
        rw [after_of_ok (drain_empty hp), drainEvents_empty hp]
        exact ⟨refl s, fun _ ran => absurd ran List.not_mem_nil⟩
      | some popped =>
        obtain ⟨job, queue⟩ := popped
        cases ha : s.isAlive job.unit with
        | false =>
          have first := pass s job queue hp ha
          have rest := ih false processed { s with queue }
          rw [after, drain_pass hp ha, ← after, drainEvents_pass hp ha]
          refine ⟨trans _ _ _ first rest.1, fun latest ran => ?_⟩
          obtain ⟨⟨r, up, now⟩, later⟩ := rest.2 latest ran
          exact ⟨⟨r, trans _ _ _ first up, now⟩, later⟩
        | true =>
          let ran := after (runBody job.unit) (s.begun queue job.unit)
          have first : T s ran := turn s job queue hp ha
          have now : Move s [.ran (turnOf job.unit (s.begun queue job.unit))] ran := .turn job queue hp ha
          rw [after, drain_turn hp ha, ← after]
          cases ended : runBody job.unit (s.begun queue job.unit) with
          | error e t =>
            have failed : turnAction runBody c processed job.unit (s.begun queue job.unit) = .error e t :=
              bind_of_error ended
            rw [after_bind_of_error failed, drainEvents_error hp ha failed, ← after_of_error ended]
            refine ⟨first, fun latest mem => ?_⟩
            cases List.mem_singleton.1 mem
            exact ⟨⟨s, refl s, now⟩, refl _⟩
          | ok a t =>
            have last : ran = t := after_of_ok ended
            have closes : T ran (after (closeTurn c processed) t) := last ▸ close processed t
            have whole : turnAction runBody c processed job.unit (s.begun queue job.unit) =
                closeTurn c processed t := bind_of_ok ended
            cases asks : closeTurn c processed t with
            | error e r =>
              rw [after_of_error asks] at closes
              rw [asks] at whole
              rw [after_bind_of_error whole, drainEvents_error hp ha whole]
              refine ⟨trans _ _ _ first closes, fun latest mem => ?_⟩
              cases List.mem_singleton.1 mem
              exact ⟨⟨s, refl s, now⟩, closes⟩
            | ok asked r =>
              rw [after_of_ok asks] at closes
              rw [asks] at whole
              have rest := ih asked (processed + 1) r
              have later := trans _ _ _ closes rest.1
              rw [after_bind_of_ok whole, drainEvents_ok hp ha whole]
              refine ⟨trans _ _ _ first later, fun latest mem => ?_⟩
              rcases List.mem_cons.1 mem with same | next
              · cases same
                exact ⟨⟨s, refl s, now⟩, later⟩
              · obtain ⟨⟨q, up, next⟩, since⟩ := rest.2 latest next
                exact ⟨⟨q, trans _ _ _ first (trans _ _ _ closes up), next⟩, since⟩

/-- A run of the queue consists of passes, turns and at most one drop. -/
theorem moves_drain (c : Cancellation) (stopping : Bool) (processed fuel : Nat) (s : Session) :
    Moves s (drainEvents c stopping processed fuel s)
      (after (drain runBody c stopping processed fuel) s) := by
  refine drain_induct (motive := Moves) c (fun _ => .refl) ?_ ?_ ?_ ?_ stopping processed fuel s
  · intro s t books
    exact (Moves.single .drop).trans (.of_bookkeeping books)
  · intro s t es job queue hp dead rest
    exact (Moves.single (.pass job queue hp dead)).trans rest
  · intro s job queue hp alive
    exact .single (.turn job queue hp alive)
  · intro s r t es job queue hp alive books rest
    exact ((Moves.single (.turn job queue hp alive)).trans (.of_bookkeeping books)).trans rest

/-- A run that ends normally and drops nothing leaves nothing waiting, and all its turns are complete. -/
theorem drain_ends {c : Cancellation} {stopping : Bool} {processed fuel n : Nat} {s t : Session}
    (h : drain runBody c stopping processed fuel s = .ok n t)
    (kept : ∀ units, .dropped units ∉ drainEvents c stopping processed fuel s) :
    t.queue.jobs = [] ∧
      ∀ turn, .ran turn ∈ drainEvents c stopping processed fuel s → turn.completed = true := by
  induction fuel generalizing stopping processed s with
  | zero => cases h
  | succ fuel ih =>
    cases stopping with
    | true => exact absurd (List.mem_singleton_self _) (kept (s.queue.jobs.map (·.unit)))
    | false =>
      cases hp : s.queue.pop? with
      | none =>
        rw [drain_empty hp] at h
        cases h
        rw [drainEvents_empty hp]
        exact ⟨WorkQueue.pop?_eq_none_iff.1 hp, fun turn hm => absurd hm List.not_mem_nil⟩
      | some popped =>
        obtain ⟨job, queue⟩ := popped
        cases ha : s.isAlive job.unit with
        | false =>
          rw [drain_pass hp ha] at h
          rw [drainEvents_pass hp ha] at kept ⊢
          exact ih h kept
        | true =>
          rw [drain_turn hp ha] at h
          rcases turnAction_run c processed job.unit (s.begun queue job.unit) with
            ⟨e, -, failed⟩ | ⟨asked, r, completed, went, -⟩
          · rw [bind_of_error failed] at h
            cases h
          · rw [bind_of_ok went] at h
            rw [drainEvents_ok hp ha went] at kept ⊢
            obtain ⟨empty, complete⟩ := ih h fun units hm => kept units (List.mem_cons_of_mem _ hm)
            refine ⟨empty, fun turn hm => ?_⟩
            rcases List.mem_cons.1 hm with hm | hm
            · cases hm
              exact completed
            · exact complete turn hm

/-- Reporting at the end keeps books. -/
theorem bookkeeping_analyzeQueued (c : Cancellation) (s : Session) :
    Bookkeeping (after (drain runBody c c.startsRequested 0 drainLimit) s)
      (after (analyzeQueued c) s) := by
  cases h : drain runBody c c.startsRequested 0 drainLimit s with
  | ok processed t =>
    rw [after_of_ok h, analyzeQueued, after_bind_of_ok h]
    exact (keeps_closeRun processed).2 t
  | error e t =>
    rw [after_of_error h, analyzeQueued, after_bind_of_error h]
    exact .refl t

private theorem reportAfter_never {t : Session} {asked : Bool}
    (h : reportAfter .never processed s = .ok asked t) : asked = false := by
  obtain ⟨r, q, got, h⟩ := bind_eq_ok h
  cases got
  cases hs : s.reportEvery with
  | none =>
    rw [hs] at h
    cases h
    rfl
  | some interval =>
    rw [hs] at h
    dsimp only at h
    split at h
    · cases h
      rfl
    · obtain ⟨-, r, -, h⟩ := bind_eq_ok h
      cases h
      rfl

theorem asked_never {u : UnitId} {t : Session} {asked : Bool}
    (h : turnAction runBody .never processed u s = .ok asked t) : asked = false := by
  obtain ⟨-, r, -, counted⟩ := bind_eq_ok h
  obtain ⟨-, q, -, reported⟩ := bind_eq_ok counted
  exact reportAfter_never reported

/-- A run that nobody cancels drops nothing. -/
theorem drainEvents_never (processed fuel : Nat) (s : Session) (units : List UnitId) :
    .dropped units ∉ drainEvents .never false processed fuel s := by
  induction fuel generalizing processed s with
  | zero => exact List.not_mem_nil
  | succ fuel ih =>
    cases hp : s.queue.pop? with
    | none =>
      rw [drainEvents_empty hp]
      exact List.not_mem_nil
    | some popped =>
      obtain ⟨job, queue⟩ := popped
      cases ha : s.isAlive job.unit with
      | false =>
        rw [drainEvents_pass hp ha]
        exact ih processed _
      | true =>
        rcases turnAction_run .never processed job.unit (s.begun queue job.unit) with
          ⟨e, -, failed⟩ | ⟨asked, t, -, went, -⟩
        · rw [drainEvents_error hp ha failed]
          intro hm
          cases List.mem_singleton.1 hm
        · rw [drainEvents_ok hp ha went, asked_never went]
          intro hm
          rcases List.mem_cons.1 hm with hm | hm
          · cases hm
          · exact ih (processed + 1) t hm

/-- A run of the queue with its books that ends. -/
theorem drained_of_analyzeQueued {n : Nat} {t : Session} (h : analyzeQueued c s = .ok n t) :
    ∃ m r, drain runBody c c.startsRequested 0 drainLimit s = .ok m r ∧ Bookkeeping r t := by
  obtain ⟨m, r, drained, -⟩ := bind_eq_ok h
  have books := bookkeeping_analyzeQueued c s
  rw [after_of_ok h, after_of_ok (show drain _ _ _ _ _ s = _ from drained)] at books
  exact ⟨m, r, drained, books⟩

end Drain

end Typeflow.Session
