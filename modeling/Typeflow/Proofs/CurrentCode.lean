import Typeflow.Proofs.Age
import Typeflow.Proofs.History

/-! Only code of current trees is run: a unit that is run belongs to a module that is there, and its body
to the tree that the module has at the moment. -/
namespace Typeflow.Session

/-- If the unit belongs to a module, the module is there and its tree has the body of the unit. -/
def Current (s : Session) (u : UnitId) : Prop :=
  ∀ e, (s.unit u).entry = some e → (s.entry e).removed = false ∧ s.hasBody e (s.unit u).body

theorem Coherent.current {s : Session} (h : Coherent s) {u : UnitId} (ha : s.isAlive u = true) :
    s.Current u := fun e he =>
  ⟨(h.placed u e ha he).present, (h.placed u e ha he).body⟩

/-- A run of the queue depends only on what is done for current units. -/
theorem drain_of_current {run : UnitId → Analysis Unit} {s : Session} (h : Sane s)
    (agrees : ∀ u t, t.Current u → run u t = runBody u t) (c : Cancellation) (stopping : Bool)
    (processed fuel : Nat) :
    drain run c stopping processed fuel s = drain runBody c stopping processed fuel s := by
  induction fuel generalizing stopping processed s with
  | zero => rw [drain, drain]
  | succ fuel ih =>
    cases stopping with
    | true => rw [drain, drain, if_pos rfl, if_pos rfl]
    | false =>
      cases hp : s.queue.pop? with
      | none => rw [drain_empty hp, drain_empty hp]
      | some popped =>
        obtain ⟨job, queue⟩ := popped
        cases ha : s.isAlive job.unit with
        | false =>
          rw [drain_pass hp ha, drain_pass hp ha]
          exact ih (h.move (.pass job queue hp ha)) false processed
        | true =>
          have started : run job.unit (s.begun queue job.unit) =
              runBody job.unit (s.begun queue job.unit) :=
            agrees _ _ ((h.begun hp).coherent.current ha)
          have same : turnAction run c processed job.unit (s.begun queue job.unit) =
              turnAction runBody c processed job.unit (s.begun queue job.unit) :=
            bind_congr_run _ started
          rw [drain_turn hp ha, drain_turn hp ha]
          rcases turnAction_run c processed job.unit (s.begun queue job.unit) with
            ⟨e, -, failed⟩ | ⟨asked, t, -, went, books⟩
          · rw [bind_of_error failed, bind_of_error (same.trans failed)]
          · rw [bind_of_ok went, bind_of_ok (same.trans went)]
            exact ih ((h.move (.turn job queue hp ha)).bookkeeping books) asked (processed + 1)

theorem removed_removeModule {s : Session} {e : EntryId} (inRange : e.index < s.entries.size) :
    ((after (removeModule (some e)) s).entry e).removed = true := by
  rcases after_removeModule e s with ⟨gone, ends⟩ | ⟨b, r, hb, ht, close⟩
  · rwa [ends]
  · have marked : ((b.withoutEntry e).entry e).removed = true := by
      have look := entry_modify b e e fun entry => { entry with removed := true, unit := none }
      rw [if_pos ⟨rfl, by rwa [hb.entries]⟩] at look
      exact congrArg Entry.removed look
    have cleared : Still (fun _ => False) r (after (clearModule (s.entry e).module) r) := .clearModule _
    exact (Ages.of_bookkeeping close).removed e
      ((Ages.of_still cleared).removed e ((Ages.of_retires ht).removed e marked))

section Later

variable {s t : Session} {es : List Event} {e : EntryId}

/-- A unit of a module that was removed is not run any more, whenever it was made. -/
theorem Moves.not_of_removed (h : Sane s) (hm : Moves s es t) (gone : (s.entry e).removed = true)
    {turn : Turn} (ran : .ran turn ∈ es) : (turn.before.unit turn.unit).entry ≠ some e := by
  intro he
  obtain ⟨sane, alive, ages, -⟩ := hm.turn_begins h ran
  have present := (sane.coherent.placed _ e alive he).present
  rw [ages.removed e gone] at present
  cases present

/-- A unit that cannot be run is not run later. -/
theorem Moves.not_of_dead (h : Sane s) (hm : Moves s es t) {u : UnitId} (hu : u.index < s.units.size)
    (dead : s.isAlive u = false) {turn : Turn} (ran : .ran turn ∈ es) : turn.unit ≠ u := by
  rintro rfl
  obtain ⟨-, alive, ages, -⟩ := hm.turn_begins h ran
  have was := ages.wasAlive hu alive
  rw [dead] at was
  cases was

end Later

/-- Whatever callers do, only current units are run: in each turn the module of the unit is there and its
tree has the body. No unit of a removed module is run, made before the removal or after, nor one that
was made for a tree before the tree was replaced, and a run of the queue depends on nothing that would
be done for another unit. -/
theorem only_current_code_runs {options : Options} {host : Host} {hostRequests : List Request}
    {s : Session} (made : create options host hostRequests = .ok s) (ops : List Operation)
    (fits : Fitting ops s) :
    (∀ turn, .ran turn ∈ eventsOf ops s → turn.before.Current turn.unit) ∧
    (∀ earlier later e, ops = earlier ++ .removeModule (some e) :: later →
      ∀ turn, .ran turn ∈ eventsOf later (afterAll (earlier ++ [.removeModule (some e)]) s) →
        (turn.before.unit turn.unit).entry ≠ some e) ∧
    (∀ earlier later e tree, ops = earlier ++ .replaceTree e tree :: later →
      ∀ u, u.index < (afterAll earlier s).units.size → ((afterAll earlier s).unit u).entry = some e →
        ∀ turn, .ran turn ∈ eventsOf later (afterAll (earlier ++ [.replaceTree e tree]) s) →
          turn.unit ≠ u) ∧
    ∀ run : UnitId → Analysis Unit, (∀ u t, t.Current u → run u t = runBody u t) →
      ∀ c stopping processed fuel,
        drain run c stopping processed fuel (afterAll ops s) =
          drain runBody c stopping processed fuel (afterAll ops s) := by
  have start : Sane s := (sane_blank options host hostRequests).moves (moves_create made)
  have whole := moves_of_fitting ops start fits
  have part : ∀ earlier o later, ops = earlier ++ o :: later →
      Sane (afterAll earlier s) ∧ o.Fits (afterAll earlier s) ∧
        Fitting later (after o.run (afterAll earlier s)) := by
    rintro earlier o later rfl
    rw [fitting_append] at fits
    exact ⟨start.moves (moves_of_fitting earlier start fits.1), fits.2⟩
  refine ⟨fun turn ran => ?_, fun earlier later e hops turn ran => ?_,
    fun earlier later e tree hops u hu he turn ran => ?_, fun run agrees c stopping processed fuel => ?_⟩
  · obtain ⟨sane, alive, -, -⟩ := whole.turn_begins start ran
    exact sane.coherent.current alive
  · obtain ⟨sane, fit, rest⟩ := part earlier _ later hops
    rw [afterAll_append] at ran
    have next := sane.move (.removeModule e)
    exact (moves_of_fitting later next rest).not_of_removed next (removed_removeModule (fit e rfl)) ran
  · obtain ⟨sane, fit, rest⟩ := part earlier _ later hops
    have inRange := fit e rfl
    rw [afterAll_append] at ran
    have next := sane.move (.replaceTree e tree inRange)
    have ages := Ages.replaceTree e tree (afterAll earlier s)
    have dead : (after (replaceTree e tree) (afterAll earlier s)).isAlive u = false := by
      cases ha : (after (replaceTree e tree) (afterAll earlier s)).isAlive u with
      | false => rfl
      | true => exact absurd ⟨ha, (ages.entry hu).trans he⟩ ((sane.coherent.replaceTree inRange tree).2 u hu)
    exact (moves_of_fitting later next rest).not_of_dead next (Nat.lt_of_lt_of_le hu ages.units) dead ran
  · exact drain_of_current (start.moves whole) agrees c stopping processed fuel

/-- A module with a function that is replaced by one without, and removed in the end. -/
def shrinkingModule : List Operation :=
  let none : Expr := .literal {} .none
  let first : Tree := { mark := {}, body := [.functionDef {} "f" [] [.ret {} none] []] }
  let second : Tree := { mark := {}, body := [.expr {} none] }
  [.addModule "m" "/m.py", .replaceTree ⟨0⟩ first, .analyzeEntry ⟨0⟩ .never,
    .replaceTree ⟨0⟩ second, .analyzeEntry ⟨0⟩ .never, .removeModule (some ⟨0⟩),
    .analyzeEntry ⟨0⟩ .never]

/-- Three units of the module are run, each while it is current. -/
theorem only_current_code_runs_shrinking :
    Fitting shrinkingModule bare ∧ (eventsOf shrinkingModule bare).length = 3 ∧
      ∀ turn, .ran turn ∈ eventsOf shrinkingModule bare → turn.before.Current turn.unit := by
  obtain ⟨fits, three⟩ : Fitting shrinkingModule bare ∧ (eventsOf shrinkingModule bare).length = 3 := by
    decide +kernel
  exact ⟨fits, three, (only_current_code_runs create_bare shrinkingModule fits).1⟩

end Typeflow.Session
