import Typeflow.Proofs.Attendance
import Typeflow.Proofs.History
import Typeflow.Proofs.Settled.Walk
import Typeflow.Proofs.Slots.Life

/-! After a run of the queue that ends and is not cancelled, the bodies of all definitions that it came
by have been run, but for those that were dropped, held back or left behind by a fault. -/
namespace Typeflow.Session

/-- The definition comes to be in the turn. -/
def Turn.Makes (turn : Turn) (v : ValueId) : Prop :=
  (turn.before.form v).code? = none ∧ (turn.after.form v).code? ≠ none

/-- In the turn a function is passed whose body the module of the unit holds back. -/
def Turn.HoldsBack (turn : Turn) (v : ValueId) : Prop :=
  let body := (turn.before.unit turn.unit).body
  HeldBack (licence turn.unit body) turn.unit body.functions turn.before turn.after v

namespace Moves

variable {s t : Session} {es : List Event} {turn : Turn}

/-- A turn begins in a session that is ready for it. -/
theorem turn_ready (hs : Sane s) (slots : Slots s) (hm : Moves s es t) (ran : .ran turn ∈ es) :
    turn.before.isAlive turn.unit = true ∧
      Ready (licence turn.unit (turn.before.unit turn.unit).body) turn.before := by
  obtain ⟨pre, post, rfl⟩ := List.append_of_mem ran
  obtain ⟨r, q, earlier, now, -⟩ := hm.split rfl
  obtain ⟨job, queue, hp, alive, rfl, rfl⟩ := now.of_ran
  have before : Slots (r.begun queue job.unit) := (slots.moves hs earlier).of_eq rfl rfl rfl (Nat.le_refl _)
  exact ⟨alive, .licence ((hs.moves earlier).begun hp) before alive⟩

private theorem turn_steps (hm : Moves s es t) (ran : .ran turn ∈ es) :
    Steps (licence turn.unit (turn.before.unit turn.unit).body) turn.before turn.after := by
  have same := congrArg Turn.after (hm.turn_eq ran)
  rw [same]
  exact steps_runBody turn.unit turn.before

/-- A turn that ends settles what its body defines. -/
theorem turn_settles (hs : Sane s) (slots : Slots s) (hm : Moves s es t) (ran : .ran turn ∈ es)
    (complete : turn.completed = true) :
    Settles (licence turn.unit (turn.before.unit turn.unit).body) turn.unit
      (turn.before.unit turn.unit).body.definitions (turn.before.unit turn.unit).body.functions
      turn.before turn.after := by
  obtain ⟨alive, ready⟩ := hm.turn_ready hs slots ran
  have same := hm.turn_eq ran
  have went := congrArg Turn.completed same
  rw [complete] at went
  obtain ⟨⟨⟩, ends⟩ := succeeded went.symm
  rw [congrArg Turn.after same]
  exact settles_runBody ready.sane ready.slots alive ends

/-- When a turn ends, everything that its body defines stands in its place. -/
theorem turn_stands (hs : Sane s) (slots : Slots s) (hm : Moves s es t) (ran : .ran turn ∈ es)
    (complete : turn.completed = true) {e : EntryId}
    (entry : (turn.before.unit turn.unit).entry = some e) {body : Body}
    (defined : body ∈ (turn.before.unit turn.unit).body.definitions) :
    ∃ v, turn.after.slot (turn.before.unit turn.unit).scope body.node.id = some (.single (some v)) ∧
      turn.after.Stands e body v := by
  obtain ⟨alive, ready⟩ := hm.turn_ready hs slots ran
  have steps := hm.turn_steps ran
  have next := ready.steps steps
  have settles := hm.turn_settles hs slots ran complete
  obtain ⟨values, kept⟩ := Option.ne_none_iff_exists'.1 (settles.filled body defined)
  have has : turn.after.hasBody e body := by
    obtain ⟨-, f, hf, -, has⟩ := next.sound turn.unit body ⟨rfl, defined⟩
    rw [(Ages.of_steps ready.sane ready.sound steps).entry (index_lt_of_isAlive alive), entry] at hf
    rwa [Option.some.inj hf]
  obtain ⟨v, rfl, stands⟩ := next.slots.made _ e body values has kept
  exact ⟨v, kept, stands⟩

/-- What there is after a turn lasts. -/
theorem turn_lasts (hs : Sane s) (hm : Moves s es t) (ran : .ran turn ∈ es) : Lasts turn.after t := by
  obtain ⟨pre, post, rfl⟩ := List.append_of_mem ran
  obtain ⟨r, q, earlier, now, later⟩ := hm.split rfl
  obtain ⟨job, queue, -, -, rfl, rfl⟩ := now.of_ran
  exact .of_moves ((hs.moves earlier).move now) later

/-- A definition without a unit comes from a turn that failed or in which it was held back. -/
theorem unprovided (hs : Sane s) (slots : Slots s) (hm : Moves s es t) {v : ValueId}
    (unmade : (s.form v).code? = none) {code : Code} {body : Body} (hc : (t.form v).code? = some code)
    (hb : code.body = some body) (hu : code.unit = none) :
    ∃ turn : Turn, .ran turn ∈ es ∧ turn.Makes v ∧ (turn.completed = false ∨ turn.HoldsBack v) := by
  obtain ⟨turn, ran, free, made⟩ := hm.born hs unmade (by rw [hc]; exact Option.some_ne_none code)
  refine ⟨turn, ran, ⟨free, made⟩, ?_⟩
  cases complete : turn.completed with
  | false => exact .inl rfl
  | true =>
    have settles := hm.turn_settles hs slots ran complete
    rcases settles.provided v free made with has | held
    · exact absurd hu (has.lasts made (hm.turn_lasts hs ran) code body hc hb)
    · exact .inr held

end Moves

/-- From a sane session in which slots are as they should be, one comes to another such session that
carries on with what there was. -/
def CarriesOn (s t : Session) : Prop := Sane s → Slots s → Sane t ∧ Slots t ∧ Carries s t

namespace CarriesOn

variable {s t : Session}

theorem refl (s : Session) : CarriesOn s s := fun hs slots => ⟨hs, slots, .refl s⟩

theorem trans {s t r : Session} (h : CarriesOn s t) (g : CarriesOn t r) : CarriesOn s r := by
  intro hs slots
  obtain ⟨sane, kept, first⟩ := h hs slots
  obtain ⟨sane, kept, second⟩ := g sane kept
  exact ⟨sane, kept, first.trans second⟩

theorem of_move {es : List Event} (h : Move s es t) (carries : Sane s → Slots s → Carries s t) :
    CarriesOn s t :=
  fun hs slots => ⟨hs.move h, slots.move hs h, carries hs slots⟩

theorem of_bookkeeping (h : Bookkeeping s t) : CarriesOn s t :=
  of_move (.change (noLicence_foreign s) (.single (.bookkeep h))) fun _ _ => .of_eq h.values h.entries

theorem stop (s : Session) : CarriesOn s (after stopRun s) := by
  obtain ⟨t, ends, books⟩ := stopRun_run s
  have dropped : CarriesOn s { s with queue := {} } := of_move .drop fun _ _ => .of_eq rfl rfl
  rw [after_of_ok ends]
  exact dropped.trans (.of_bookkeeping books)

theorem turn {job : Job} {queue : WorkQueue} (hp : s.queue.pop? = some (job, queue))
    (alive : s.isAlive job.unit = true) :
    CarriesOn s (after (runBody job.unit) (s.begun queue job.unit)) := by
  refine of_move (.turn job queue hp alive) fun hs slots => ?_
  have begun : Slots (s.begun queue job.unit) := slots.of_eq rfl rfl rfl (Nat.le_refl _)
  have ready := Ready.licence (hs.begun hp) begun alive
  have started : Carries s (s.begun queue job.unit) := .of_eq rfl rfl
  exact started.trans (ready.carries (steps_runBody job.unit _))

theorem close (c : Cancellation) (processed : Nat) (s : Session) :
    CarriesOn s (after (closeTurn c processed) s) :=
  of_bookkeeping ((keeps_closeTurn c processed).2 s)

end CarriesOn

/-- A run of the queue leaves definitions and modules as it finds them, also from each turn on. -/
theorem carries_drain {s : Session} (hs : Sane s) (slots : Slots s) (c : Cancellation) (stopping : Bool)
    (processed fuel : Nat) :
    Carries s (after (drain runBody c stopping processed fuel) s) ∧
      ∀ turn, .ran turn ∈ drainEvents c stopping processed fuel s →
        Carries turn.after (after (drain runBody c stopping processed fuel) s) := by
  have passed : ∀ s job queue, s.queue.pop? = some (job, queue) → s.isAlive job.unit = false →
      CarriesOn s { s with queue } := fun s job queue hp dead =>
    .of_move (.pass job queue hp dead) fun _ _ => .of_eq rfl rfl
  have since := drain_since CarriesOn.refl (fun _ _ _ => CarriesOn.trans) c CarriesOn.stop passed
    (fun _ _ _ => CarriesOn.turn) (CarriesOn.close c) stopping processed fuel s
  refine ⟨(since.1 hs slots).2.2, fun turn ran => ?_⟩
  obtain ⟨⟨r, up, now⟩, later⟩ := since.2 turn ran
  obtain ⟨sane, kept, -⟩ := up hs slots
  exact (later (sane.move now) (kept.move sane now)).2.2

/-- A run of the queue in which something happens to units, and which ends and drops none. -/
theorem Operation.drained {o : Operation} {s : Session} (ends : succeeds o.run s = true) {event : Event}
    (mem : event ∈ o.events s) :
    ∃ c q n r, o.events s = drainEvents c c.startsRequested 0 drainLimit q ∧
      drain runBody c c.startsRequested 0 drainLimit q = .ok n r ∧ Bookkeeping r (after o.run s) ∧
      (q = s ∨ ∃ e, q = after (Session.enqueueEntry e) s) := by
  obtain ⟨a, finish⟩ := succeeded ends
  cases o with
  | analyzeQueued c =>
    obtain ⟨n, t, ran, close⟩ := bind_eq_ok finish
    obtain ⟨m, r, drained, books⟩ := drained_of_analyzeQueued ran
    refine ⟨c, s, m, r, rfl, drained, ?_, .inl rfl⟩
    cases close
    exact books
  | analyzeEntry e c =>
    obtain ⟨b, q, queued, rest⟩ := bind_eq_ok finish
    obtain ⟨n, t, ran, close⟩ := bind_eq_ok rest
    obtain ⟨m, r, drained, books⟩ := drained_of_analyzeQueued ran
    refine ⟨c, q, m, r, ?_, drained, ?_, .inr ⟨e, (after_of_ok queued).symm⟩⟩
    · rw [events, after_of_ok queued]
    · cases close
      exact books
  | _ => cases mem

theorem slots_blank (options : Options) (host : Host) (hostRequests : List Request) :
    Slots (blank options host hostRequests) where
  below _ _ hn := absurd rfl hn
  made _ _ _ _ _ hv := nomatch hv

theorem engaged_blank (options : Options) (host : Host) (hostRequests : List Request) :
    Engaged (blank options host hostRequests) where
  tracked _ _ hu := nomatch hu
  unit _ _ _ _ _ hc := nomatch hc

private theorem attends_blank (options : Options) (host : Host) (hostRequests : List Request)
    (served : UnitId → Prop) : Attends served (blank options host hostRequests) :=
  fun _ _ _ _ _ hc => nomatch hc

/-- After a run of the queue that ends and is not cancelled, every definition in a body that it ran has
its unit, which was run since or waited when an earlier run was cancelled; or it has none, since the
turn that made it failed or since its module held it back. -/
theorem every_body_is_run {options : Options} {host : Host} {hostRequests : List Request}
    {s : Session} (made : create options host hostRequests = .ok s) {ops : List Operation}
    {o : Operation} (fits : Fitting (ops ++ [o]) s) (ends : succeeds o.run (afterAll ops s) = true)
    (kept : ∀ units, .dropped units ∉ o.events (afterAll ops s)) {turn : Turn}
    (ran : .ran turn ∈ o.events (afterAll ops s)) {e : EntryId}
    (entry : (turn.before.unit turn.unit).entry = some e) {body : Body}
    (defined : body ∈ (turn.before.unit turn.unit).body.definitions) :
    ∃ v scope,
      turn.after.slot (turn.before.unit turn.unit).scope body.node.id = some (.single (some v)) ∧
      ((∃ u, ((afterAll (ops ++ [o]) s).form v).code? = some ⟨some e, some body, scope, some u⟩ ∧
          (afterAll (ops ++ [o]) s).unit u = ⟨some e, scope, body, false⟩ ∧
          ((∃ run, .ran run ∈ eventsOf (ops ++ [o]) s ∧ run.unit = u) ∨
            ∃ units, .dropped units ∈ eventsOf ops s ∧ u ∈ units)) ∨
        ((afterAll (ops ++ [o]) s).form v).code? = some ⟨some e, some body, scope, none⟩ ∧
          ∃ run : Turn, .ran run ∈ eventsOf (ops ++ [o]) s ∧ run.Makes v ∧
            (run.completed = false ∨ run.HoldsBack v)) := by
  let p := afterAll ops s
  let t := afterAll (ops ++ [o]) s
  have sane := sane_blank options host hostRequests
  have slots := slots_blank options host hostRequests
  have start : Sane s := sane.moves (moves_create made)
  have fitsFirst := (fitting_append ops [o] s).1 fits
  have whole : Moves (blank options host hostRequests) (eventsOf (ops ++ [o]) s) t :=
    (moves_create made).trans (moves_of_fitting (ops ++ [o]) start fits)
  have first : Moves (blank options host hostRequests) (eventsOf ops s) p :=
    (moves_create made).trans (moves_of_fitting ops start fitsFirst.1)
  have events : eventsOf (ops ++ [o]) s = eventsOf ops s ++ o.events p := by
    rw [eventsOf_append, eventsOf, eventsOf, List.append_nil]
  have last : after o.run p = t := (afterAll_append ops [o] s).symm
  have ranAll : .ran turn ∈ eventsOf (ops ++ [o]) s := by
    rw [events]
    exact List.mem_append_right _ ran
  obtain ⟨c, q, n, r, same, drained, books, queued⟩ := Operation.drained ends ran
  have queues : Moves p [] q := by
    rcases queued with rfl | ⟨f, rfl⟩
    · exact .refl
    · exact .of_stepwise (.enqueueEntry f) p
  rw [last] at books
  rw [same] at kept ran
  obtain ⟨idle, complete⟩ := drain_ends drained kept
  obtain ⟨v, placed, stands⟩ := whole.turn_stands sane slots ranAll (complete turn ran) entry defined
  have carried : Carries turn.after t := by
    have ready : Sane q ∧ Slots q :=
      ⟨(sane.moves first).moves queues, (slots.moves sane first).moves (sane.moves first) queues⟩
    have rest := (carries_drain ready.1 ready.2 c c.startsRequested 0 drainLimit).2 turn ran
    rw [after_of_ok drained] at rest
    exact rest.trans (.of_eq books.values books.entries)
  have present : (t.entry e).removed = false := by
    obtain ⟨alive, ready⟩ := whole.turn_ready sane slots ranAll
    rw [carried.removed, (ready.carries (whole.turn_steps ranAll)).removed]
    exact (ready.sane.coherent.placed turn.unit e alive entry).present
  obtain ⟨⟨⟨owner?, body?, scope, unit?⟩, hc, he, hb⟩, -⟩ := carried.stands e body v stands
  obtain rfl : owner? = some e := he
  obtain rfl : body? = some body := hb
  refine ⟨v, scope, placed, ?_⟩
  cases unit? with
  | none => exact .inr ⟨hc, whole.unprovided sane slots rfl hc rfl rfl⟩
  | some u =>
    have runs := ((engaged_blank options host hostRequests).moves sane whole).unit v e body scope u hc
    rw [present] at runs
    refine .inl ⟨u, hc, runs.2, ?_⟩
    have alive : t.isAlive u = true := by rw [isAlive, runs.2]; rfl
    have attends := (attends_blank options host hostRequests (Served [])).moves sane
      (engaged_blank options host hostRequests) whole
    rcases attends v e body scope u hc alive with (run | ⟨units, dropped, mem⟩) | waits
    · exact .inl run
    · rw [events] at dropped
      rcases List.mem_append.1 dropped with dropped | dropped
      · exact .inr ⟨units, dropped, mem⟩
      · rw [same] at dropped
        exact absurd dropped (kept units)
    · obtain ⟨other, ho, -⟩ := WorkQueue.holds_iff.1 waits
      rw [books.queue, idle] at ho
      cases ho

/-- Whether a turn is that of a unit of a module whose body defines something. -/
def Event.defines (e : EntryId) : Event → Bool
  | .dropped _ => false
  | .ran turn =>
    let unit := turn.before.unit turn.unit
    decide (unit.entry = some e) && !unit.body.definitions.isEmpty

/-- A module with a function that nobody calls. -/
def definingModule : List Operation :=
  let f : Stmt := .functionDef {} "f" [] [.ret {} (.literal {} .none)] []
  [.addModule "m" "/m.py", .replaceTree ⟨0⟩ (some { mark := {}, body := [f] })]

/-- The session after some operations and an analysis of the first module that nobody cancels. -/
def analysedWith (ops : List Operation) : Session := afterAll (ops ++ [.analyzeEntry ⟨0⟩ .never]) bare

/-- The body of the function is run all the same. -/
theorem every_body_is_run_defining :
    ∃ turn body v scope u,
      .ran turn ∈ (Operation.analyzeEntry ⟨0⟩ .never).events (afterAll definingModule bare) ∧
      body ∈ (turn.before.unit turn.unit).body.definitions ∧
      ((analysedWith definingModule).form v).code? = some ⟨some ⟨0⟩, some body, scope, some u⟩ ∧
      ∃ run, .ran run ∈ eventsOf (definingModule ++ [.analyzeEntry ⟨0⟩ .never]) bare ∧ run.unit = u := by
  obtain ⟨fits, ends, defining, provided⟩ :
      Fitting (definingModule ++ [.analyzeEntry ⟨0⟩ .never]) bare ∧
      succeeds (Operation.analyzeEntry ⟨0⟩ .never).run (afterAll definingModule bare) = true ∧
      ((Operation.analyzeEntry ⟨0⟩ .never).events (afterAll definingModule bare)).map
        (Event.defines ⟨0⟩) = [true, false] ∧
      (List.range (analysedWith definingModule).values.size).all (fun i =>
        ((analysedWith definingModule).form ⟨i⟩).code?.all (·.unit.isSome)) = true := by decide +kernel
  have nothing : eventsOf definingModule bare = [] := rfl
  obtain ⟨event, rest, events, defines, -⟩ := List.map_eq_cons_iff.1 defining
  have ran : event ∈ (Operation.analyzeEntry ⟨0⟩ .never).events (afterAll definingModule bare) := by
    rw [events]
    exact List.mem_cons_self
  cases event with
  | dropped units => cases defines
  | ran turn =>
    simp only [Event.defines, Bool.and_eq_true, decide_eq_true_eq, Bool.not_eq_true',
      List.isEmpty_eq_false_iff_exists_mem] at defines
    obtain ⟨entry, body, defined⟩ := defines
    obtain ⟨v, scope, -, ⟨u, code, -, run | ⟨units, dropped, -⟩⟩ | ⟨code, -⟩⟩ :=
      every_body_is_run create_bare fits ends (drainEvents_never 0 drainLimit _) ran entry defined
    · exact ⟨turn, body, v, scope, u, ran, defined, code, run⟩
    · rw [nothing] at dropped
      cases dropped
    · have has := List.all_eq_true.1 provided v.index (List.mem_range.2 (index_lt_of_code? code))
      rw [show (⟨v.index⟩ : ValueId) = v from rfl,
        show ((analysedWith definingModule).form v).code? = _ from code] at has
      cases has

/-- The same module, analysed before in a run that is cancelled after its first turn. -/
def droppingModule : List Operation :=
  definingModule ++ [.setReporting (some 1), .analyzeEntry ⟨0⟩ (.afterReports 1), .setReporting none]

/-- Not every body is run: the unit of the function was dropped when the run was cancelled, and the run
after it, which is not, does not queue it again. -/
theorem body_is_dropped :
    Fitting (droppingModule ++ [.analyzeEntry ⟨0⟩ .never]) bare ∧
      succeeds (analyzeEntry ⟨0⟩ .never) (afterAll droppingModule bare) = true ∧
      ((Operation.analyzeEntry ⟨0⟩ .never).events (afterAll droppingModule bare)).map Event.unit? =
        [some ⟨0⟩] ∧
      (((analysedWith droppingModule).unit ⟨0⟩).body.definitions.map (·.node.id)) =
        [((analysedWith droppingModule).unit ⟨1⟩).body.node.id] ∧
      (((analysedWith droppingModule).form ⟨1⟩).code?.bind (·.unit)) = some ⟨1⟩ ∧
      (analysedWith droppingModule).isAlive ⟨1⟩ = true ∧
      (eventsOf (droppingModule ++ [.analyzeEntry ⟨0⟩ .never]) bare).map Event.unit? =
        [some ⟨0⟩, none, some ⟨0⟩] := by
  decide +kernel

end Typeflow.Session
