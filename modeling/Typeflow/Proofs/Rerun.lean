import Typeflow.Proofs.Readers

/-! What a finished analysis leaves: nothing that a unit has read is out of date, so units that are run
again change something only through what they do not register to read. -/
namespace Typeflow.Session

/-- No types are different, and every record is where it was. -/
structure Unchanged (s t : Session) : Prop where
  types : ∀ x, t.types x = s.types x
  places : ∀ place x, s.recordAt? place = some x → t.recordAt? place = some x

/-- Nothing has come to wait either. -/
structure Quiet (s t : Session) : Prop extends Unchanged s t where
  queue : t.queue = s.queue

namespace Unchanged

variable {s t r : Session}

theorem trans (h : Unchanged s t) (g : Unchanged t r) : Unchanged s r :=
  ⟨fun x => (g.types x).trans (h.types x), fun place x hx => g.places place x (h.places place x hx)⟩

/-- A change of other parts of a session. -/
theorem of_eq (values : t.values = s.values) (scopes : t.scopes = s.scopes)
    (records : t.records = s.records) : Unchanged s t := by
  refine ⟨fun x => ?_, fun place x hx => ?_⟩
  · rw [Session.types, var, records]
    rfl
  · cases place with
    | name c name => rwa [recordAt?, findName?, scope, scopes]
    | part v part => rwa [recordAt?, form, value, values]

theorem of_bookkeeping (h : Bookkeeping s t) : Unchanged s t := of_eq h.values h.scopes h.records

end Unchanged

/-- All that the unit read in the turn is in the session as it was then. -/
def Turn.Sees (turn : Turn) (s : Session) : Prop :=
  ∀ place x types, turn.Reads place x types → s.recordAt? place = some x ∧ s.types x = types

theorem Turn.Sees.unchanged {turn : Turn} {s t : Session} (h : turn.Sees s) (same : Unchanged s t) :
    turn.Sees t := by
  intro place x types reads
  obtain ⟨stored, seen⟩ := h place x types reads
  exact ⟨same.places place x stored, (same.types x).trans seen⟩

/-- When nothing waits, every unit that may run sees what it read in its last turn. -/
theorem Moves.sees {s t : Session} {es : List Event} {turn : Turn} (hs : Sane s) (hm : Moves s es t)
    (last : turn.IsLast es) (alive : t.isAlive turn.unit = true) (idle : t.queue.jobs = []) :
    turn.Sees t := by
  intro place x types reads
  rcases hm.heeds hs last reads alive with waits | depends
  · have mem := (hs.moves hm).coherent.mem_of_holds alive waits
    rw [idle] at mem
    cases mem
  · exact ⟨depends.stored, depends.same⟩

/-- A run in which every turn is quiet changes nothing. -/
theorem unchanged_drain {us : List UnitId} {a s : Session} {processed fuel : Nat} (same : Unchanged a s)
    (jobs : ∀ job ∈ s.queue.jobs, job.unit ∈ us)
    (quiet : ∀ turn, .ran turn ∈ drainEvents .never false processed fuel s → turn.unit ∈ us →
      Unchanged a turn.before → Quiet turn.before turn.after) :
    Unchanged a (after (drain runBody .never false processed fuel) s) := by
  induction fuel generalizing processed s with
  | zero => exact same
  | succ fuel ih =>
    cases hp : s.queue.pop? with
    | none => rwa [after_of_ok (drain_empty hp)]
    | some popped =>
      obtain ⟨job, queue⟩ := popped
      have list := Sane.of_pop hp
      have rest : ∀ other ∈ queue.jobs, other.unit ∈ us := fun other ho =>
        jobs other (by rw [list]; exact List.mem_cons_of_mem _ ho)
      cases ha : s.isAlive job.unit with
      | false =>
        rw [after, drain_pass hp ha, ← after]
        rw [drainEvents_pass hp ha] at quiet
        exact ih (same.trans (.of_eq rfl rfl rfl)) rest quiet
      | true =>
        have first : job.unit ∈ us := jobs job (by rw [list]; exact List.mem_cons_self)
        have begun : Unchanged a (s.begun queue job.unit) := same.trans (.of_eq rfl rfl rfl)
        rw [after, drain_turn hp ha, ← after]
        rcases turnAction_run .never processed job.unit (s.begun queue job.unit) with
          ⟨e, -, failed⟩ | ⟨asked, t, -, went, books⟩
        · rw [drainEvents_error hp ha failed] at quiet
          have turn := quiet _ (List.mem_singleton_self _) first begun
          rw [after_bind_of_error failed]
          exact begun.trans turn.toUnchanged
        · rw [drainEvents_ok hp ha went, asked_never went] at quiet
          have turn := quiet _ List.mem_cons_self first begun
          rw [after_bind_of_ok went, asked_never went]
          refine ih ((begun.trans turn.toUnchanged).trans (.of_bookkeeping books)) (fun other ho => ?_)
            fun turn hm => quiet turn (List.mem_cons_of_mem _ hm)
          have same : t.queue = queue := books.queue.trans turn.queue
          exact rest other (by rwa [same] at ho)

def rerun (us : List UnitId) : List Operation :=
  us.map (.enqueueUnit · .back) ++ [.analyzeQueued .never]

private theorem queues_enqueueUnits (us : List UnitId) (s : Session) :
    Queues us s (afterAll (us.map (.enqueueUnit · .back)) s) := by
  induction us generalizing s with
  | nil => exact .nil s
  | cons u rest ih => exact (queues_enqueue u .back s).append (ih _)

private theorem eventsOf_enqueueUnits (us : List UnitId) (s : Session) :
    eventsOf (us.map (.enqueueUnit · .back)) s = [] := by
  induction us generalizing s with
  | nil => rfl
  | cons u rest ih => exact ih _

private theorem fitting_enqueueUnits (us : List UnitId) (s : Session) :
    Fitting (us.map (.enqueueUnit · .back)) s := by
  induction us generalizing s with
  | nil => trivial
  | cons u rest ih =>
    refine ⟨?_, ih _⟩
    intro _ h
    cases h

theorem idle_of_analyzeQueued {s t : Session} {n : Nat} (h : analyzeQueued .never s = .ok n t) :
    t.queue.jobs = [] := by
  obtain ⟨processed, r, drained, books⟩ := drained_of_analyzeQueued h
  rw [books.queue]
  exact (drain_ends drained fun units => drainEvents_never 0 drainLimit s units).1

/-- After a run of the queue that is not cancelled and ends normally, every unit that may run sees all
that it read in its last turn as it was then. So if units are queued again, no name changes its types
unless some turn does something although no types have changed since, nor anything that its unit read:
what the body does depends on something that it does not register to read. -/
theorem rerun_unchanged {options : Options} {host : Host} {hostRequests : List Request}
    {s t : Session} (made : create options host hostRequests = .ok s) {ops : List Operation}
    (fits : Fitting ops s) {n : Nat} (ends : analyzeQueued .never (afterAll ops s) = .ok n t) :
    (∀ turn : Turn, turn.IsLast (eventsOf (ops ++ [.analyzeQueued .never]) s) →
      t.isAlive turn.unit = true → turn.Sees t) ∧
    ∀ us : List UnitId,
      (∀ u ∈ us, ∃ turn : Turn, turn.unit = u ∧
        turn.IsLast (eventsOf (ops ++ [.analyzeQueued .never]) s)) →
      (∀ x, (afterAll (rerun us) t).types x = t.types x) ∨
        ∃ first second : Turn, first.IsLast (eventsOf (ops ++ [.analyzeQueued .never]) s) ∧
          .ran second ∈ eventsOf (rerun us) t ∧ second.unit = first.unit ∧
          Unchanged t second.before ∧ first.Sees second.before ∧
          ¬ Quiet second.before second.after := by
  have start : Sane s := (sane_blank options host hostRequests).moves (moves_create made)
  have fitsAll : Fitting (ops ++ [.analyzeQueued .never]) s := by
    refine (fitting_append _ _ _).2 ⟨fits, ?_, trivial⟩
    intro _ h
    cases h
  have finished : afterAll (ops ++ [.analyzeQueued .never]) s = t := by
    rw [afterAll_append]
    have run : after (Operation.analyzeQueued .never).run (afterAll ops s) =
        after (pure () : Analysis Unit) t := after_bind_of_ok ends
    exact run
  have whole := moves_of_fitting _ start fitsAll
  rw [finished] at whole
  have idle := idle_of_analyzeQueued ends
  have sees : ∀ turn : Turn, turn.IsLast (eventsOf (ops ++ [.analyzeQueued .never]) s) →
      t.isAlive turn.unit = true → turn.Sees t := fun turn last alive =>
    whole.sees start last alive idle
  refine ⟨sees, fun us again => Classical.or_iff_not_imp_right.2 fun quiet x => ?_⟩
  have sane := start.moves whole
  let queued := afterAll (us.map (.enqueueUnit · .back)) t
  have queues : Queues us t queued := queues_enqueueUnits us t
  have enqueued : Moves t [] queued := by
    have moves := moves_of_fitting _ sane (fitting_enqueueUnits us t)
    rwa [eventsOf_enqueueUnits] at moves
  have events : eventsOf (rerun us) t = drainEvents .never false 0 drainLimit queued := by
    rw [rerun, eventsOf_append, eventsOf_enqueueUnits]
    exact List.append_nil _
  have same : Unchanged t queued := .of_eq (by rw [queues.frame]) (by rw [queues.frame])
    (by rw [queues.frame])
  have jobs : ∀ job ∈ queued.queue.jobs, job.unit ∈ us := by
    intro job hj
    rcases queues.only job hj with old | new
    · rw [idle] at old
      cases old
    · exact new
  have drained : Unchanged t (after (drain runBody .never false 0 drainLimit) queued) := by
    refine unchanged_drain same jobs fun second ran mem unchanged => ?_
    obtain ⟨first, unit, last⟩ := again _ mem
    have inRange : first.unit.index < t.units.size := by
      obtain ⟨pre, post, split, -, -⟩ := last
      have turn : .ran first ∈ eventsOf (ops ++ [.analyzeQueued .never]) s := by
        rw [split]
        exact List.mem_append_right _ List.mem_cons_self
      obtain ⟨-, alive, -, ages⟩ := whole.turn_begins start turn
      exact Nat.lt_of_lt_of_le (index_lt_of_isAlive alive) ages.units
    obtain ⟨-, alive, ages, -⟩ :=
      (enqueued.trans (moves_drain .never false 0 drainLimit queued)).turn_begins sane ran
    have living : t.isAlive first.unit = true := ages.wasAlive inRange (by rwa [unit])
    refine Classical.not_not.1 fun busy => quiet ⟨first, second, last, ?_, unit.symm, unchanged,
      (sees first last living).unchanged unchanged, busy⟩
    rwa [events]
  have result : afterAll (rerun us) t = after (analyzeQueued .never) queued := by
    rw [rerun, afterAll_append]
    exact after_ignore _ _
  rw [result]
  exact (drained.trans (.of_bookkeeping (bookkeeping_analyzeQueued .never queued))).types x

private theorem quiet_addReader (x : VarId) (u : UnitId) (s : Session) : Quiet s (after (addReader x u) s) := by
  refine ⟨⟨fun y => ?_, fun place y hy => by cases place <;> exact hy⟩, rfl⟩
  rw [types, show (after (addReader x u) s).var y = _ from Fills.var_modify s x y _]
  split
  · exact Variable.types_addReader _ _ _
  · rfl

/-- Whether a turn is that of a body that is only a name, which is bound nowhere and was read before. -/
def Event.rereads : Event → Bool
  | .dropped _ => false
  | .ran turn =>
    let s := turn.before
    let scope := (s.unit turn.unit).scope
    match (s.unit turn.unit).body.statements with
    | [.expr _ (.name _ id)] =>
      (s.visibleName? scope id).isNone && (s.findName? (s.moduleScope scope) id).isSome &&
        (s.peek? s.options.builtinsName).isNone
    | _ => false

private theorem quiet_of_rereads {s : Session} {u : UnitId} (h : (Event.ran (turnOf u s)).rereads = true) :
    Quiet s (after (runBody u) s) := by
  simp only [Event.rereads] at h
  split at h
  · next mark at_ id body =>
    replace body : (s.unit u).body.statements = [.expr mark (.name at_ id)] := body
    simp only [Bool.and_eq_true, Option.isNone_iff_eq_none, Option.isSome_iff_exists] at h
    obtain ⟨⟨unbound, x, found⟩, noBuiltins⟩ := h
    let c := s.moduleScope (s.unit u).scope
    have named : nameIn c id s = .ok x s := nameIn_of_some found
    have absent : builtinsModule (after (addReader x u) s) = .ok none (after (addReader x u) s) := by
      have missing : (after (addReader x u) s).peek? s.options.builtinsName = none := noBuiltins
      have none_of : lookupModule s.options.builtinsName (after (addReader x u) s) =
          .ok none (after (addReader x u) s) := by
        simp only [lookupModule, read_run, missing]
        rfl
      exact bind_of_ok none_of
    have ends : after (runBody u) s = after (addReader x u) s := by
      rw [after_runBody_unbound body unbound named, builtinNamed, bind_assoc, after_bind_of_ok absent]
      rfl
    rw [ends]
    exact quiet_addReader x u s
  · cases h

def lookingModule : List Operation :=
  let tree : Tree := { mark := {}, body := [.expr {} (.name {} "x")] }
  [.addModule "m" "/m.py", .replaceTree ⟨0⟩ tree, .enqueueEntry ⟨0⟩]

def analysed (ops : List Operation) : Session := after (analyzeQueued .never) (afterAll ops bare)

/-- Running the module again changes nothing. -/
theorem rerun_unchanged_looking :
    (analysed lookingModule).isAlive ⟨0⟩ = true ∧
      ∀ x, (afterAll (rerun [⟨0⟩]) (analysed lookingModule)).types x = (analysed lookingModule).types x := by
  obtain ⟨fits, went, alive, units, refits, rereads⟩ : Fitting lookingModule bare ∧
      succeeds (analyzeQueued .never) (afterAll lookingModule bare) = true ∧
      (analysed lookingModule).isAlive ⟨0⟩ = true ∧
      (eventsOf (lookingModule ++ [.analyzeQueued .never]) bare).map Event.unit? = [some ⟨0⟩] ∧
      Fitting (rerun [⟨0⟩]) (analysed lookingModule) ∧
      (eventsOf (rerun [⟨0⟩]) (analysed lookingModule)).all Event.rereads = true := by
    decide +kernel
  obtain ⟨n, ends⟩ := succeeded went
  obtain ⟨event, events, unit⟩ := List.map_eq_singleton_iff.1 units
  have start : Sane bare := (sane_blank {} {} []).moves (moves_create create_bare)
  have sane : Sane (analysed lookingModule) :=
    (start.moves (moves_of_fitting _ start fits)).moves (Operation.moves_analyzeQueued .never _)
  have again : ∀ u ∈ [(⟨0⟩ : UnitId)], ∃ turn : Turn, turn.unit = u ∧
      turn.IsLast (eventsOf (lookingModule ++ [.analyzeQueued .never]) bare) := by
    intro u hu
    rw [List.mem_singleton.1 hu]
    cases event with
    | dropped units => cases unit
    | ran turn =>
      refine ⟨turn, Option.some.inj unit, [], [], events, ?_, ?_⟩
      · simp
      · simp
  rcases (rerun_unchanged create_bare fits ends).2 [⟨0⟩] again with same | ⟨-, second, -, ran, -, -, -, busy⟩
  · exact ⟨alive, same⟩
  · have moves := moves_of_fitting (rerun [⟨0⟩]) sane refits
    have turn := moves.turn_eq ran
    have rereads := List.all_eq_true.1 rereads _ ran
    rw [turn] at rereads busy
    exact absurd (quiet_of_rereads rereads) busy

/-- A function that reads a name before it binds it, so that its first run sees the name of the module
and each further one its own. -/
def rebindingModule : List Operation :=
  let name (id : String) : Expr := .name {} id
  let f : Stmt := .functionDef {} "f" []
    [.assign {} [name "y"] (name "x"), .assign {} [name "x"] (.literal {} .none),
      .ret {} (name "y")] []
  let tree : Tree :=
    { mark := {}
      body := [.assign {} [name "x"] (.literal {} (.int 1)), f,
        .assign {} [name "z"] (.call {} (name "f") [] [])] }
  [.addModule "m" "/m.py", .replaceTree ⟨0⟩ tree, .enqueueEntry ⟨0⟩]

/-- Not every analysis that has ended is finished: the result of the function changes when its body is
run again, though nothing else has happened. -/
theorem rerun_changes_rebinding :
    Fitting rebindingModule bare ∧
      succeeds (analyzeQueued .never) (afterAll rebindingModule bare) = true ∧
      (analysed rebindingModule).isAlive ⟨1⟩ = true ∧
      (afterAll (rerun [⟨1⟩]) (analysed rebindingModule)).types ⟨3⟩ ≠
        (analysed rebindingModule).types ⟨3⟩ := by
  decide +kernel

end Typeflow.Session
