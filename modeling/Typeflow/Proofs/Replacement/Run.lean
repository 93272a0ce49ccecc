import Typeflow.Proofs.EveryBody
import Typeflow.Proofs.Replacement.Walk

/-! What a run of the queue leaves of the functions whose calls their modules replace. The turn of a unit dresses them.
Later turns leave them dressed: the unit waits where the name is gone, and its next turn binds the name again. -/
namespace Typeflow.Session

variable {s t q r : Session} {u : UnitId} {e : EntryId} {name : String} {body : Body} {v w : ValueId}

/-- Trees, definitions and names are in order. -/
structure Orderly (s : Session) : Prop where
  sane : Sane s
  slots : Slots s
  supplied : Supplied s

/-- The unit defines a function of the name whose calls its module replaces, and the function is dressed. -/
structure Serving (s : Session) (u : UnitId) (e : EntryId) (name : String) (body : Body) (v w : ValueId) : Prop where
  alive : s.isAlive u = true
  entry : (s.unit u).entry = some e
  defines : (name, body) ∈ (s.unit u).body.functions
  replaced : s.Replaces u e name
  dressed : s.Dressed u name body v w

/-- Units that may run stay the same, and what modules replace stays replaced. -/
structure Abides (s t : Session) : Prop where
  unit : ∀ u, s.isAlive u = true → t.unit u = s.unit u
  replaces : ∀ u e name, s.isAlive u = true → (s.unit u).entry = some e → s.Replaces u e name → t.Replaces u e name

/-- Functions that are dressed stay so, and wrappers are for the same functions. -/
structure Outfits (s t : Session) : Prop extends Abides s t where
  serving : ∀ u e name body v w, s.Serving u e name body v w → t.Serving u e name body v w
  form : ∀ u e name body v w, s.Serving u e name body v w → s.form w = .wrapper (s.wrapperOf u e v name) →
    t.form w = .wrapper (t.wrapperOf u e v name)

theorem Serving.hasBody (h : s.Serving u e name body v w) (sane : Sane s) : s.hasBody e body := by
  obtain ⟨tree, current, mem⟩ := (sane.coherent.placed u e h.alive h.entry).body
  exact ⟨tree, current, Tree.bodies_inner mem (Stmt.definitionsAll_of_functionsAll _ h.defines)⟩

theorem Abides.alive (h : Abides s t) (alive : s.isAlive u = true) : t.isAlive u = true := by
  rwa [isAlive, h.unit u alive]

theorem Abides.trans (h : Abides s t) (g : Abides t q) : Abides s q where
  unit u alive := (g.unit u (h.alive alive)).trans (h.unit u alive)
  replaces u e name alive entry replaced :=
    g.replaces u e name (h.alive alive) (by rwa [h.unit u alive]) (h.replaces u e name alive entry replaced)

namespace Outfits

theorem refl (s : Session) : Outfits s s :=
  ⟨⟨fun _ _ => rfl, fun _ _ _ _ _ => id⟩, fun _ _ _ _ _ _ => id, fun _ _ _ _ _ _ _ => id⟩

theorem trans (h : Outfits s t) (g : Outfits t q) : Outfits s q where
  toAbides := h.toAbides.trans g.toAbides
  serving u e name body v w serves := g.serving u e name body v w (h.serving u e name body v w serves)
  form u e name body v w serves form :=
    g.form u e name body v w (h.serving u e name body v w serves) (h.form u e name body v w serves form)

/-- A change of other parts of a session, in which units that wait go on waiting. -/
theorem of_same (values : t.values = s.values) (records : t.records = s.records) (scopes : t.scopes = s.scopes)
    (units : t.units = s.units) (entries : t.entries = s.entries)
    (waits : ∀ u, s.isAlive u = true → s.queue.holds (s.job u) = true → t.queue.holds (t.job u) = true) :
    Outfits s t := by
  cases s
  cases t
  subst values records scopes units entries
  refine ⟨⟨fun _ _ => rfl, fun _ _ _ _ _ => id⟩, fun u e name body v w h => ?_, fun _ _ _ _ _ _ _ form => form⟩
  exact ⟨h.alive, h.entry, h.defines, h.replaced, h.dressed.slot, h.dressed.kept,
    h.dressed.prepared.imp_left (waits u h.alive)⟩

theorem of_bookkeeping (h : Bookkeeping s t) : Outfits s t :=
  of_same h.values h.records h.scopes h.units h.entries fun u _ waits => by
    rw [h.queue, show t.job u = s.job u by rw [Session.job, Session.unit, h.units]; rfl]
    exact waits

/-- Another unit is taken off the queue. -/
theorem of_pass (sane : Sane s) {job : Job} {queue : WorkQueue} (hp : s.queue.pop? = some (job, queue))
    (dead : s.isAlive job.unit = false) : Outfits s { s with queue } := by
  refine of_same rfl rfl rfl rfl rfl fun u alive waits => ?_
  have popped : Minds u s { s with queue } := .of_pop sane.coherent hp fun _ same => by
    rw [same, alive] at dead
    cases dead
  exact popped.waits alive waits

end Outfits

theorem Orderly.moves (h : Orderly s) {es : List Event} (moves : Moves s es t) : Orderly t :=
  ⟨h.sane.moves moves, h.slots.moves h.sane moves, (Supplies.of_moves h.sane moves).supplied h.supplied⟩

/-- A turn begins. -/
theorem Orderly.begun (h : Orderly s) {job : Job} {queue : WorkQueue} (hp : s.queue.pop? = some (job, queue)) :
    Orderly (s.begun queue job.unit) :=
  ⟨h.sane.begun hp, h.slots.of_eq rfl rfl rfl (Nat.le_refl _), (Supplies.begun queue job.unit).supplied h.supplied⟩

private theorem Orderly.underway (h : Orderly s) {x : UnitId} (runs : s.isAlive x = true) (alive : s.isAlive u = true)
    (entry : (s.unit u).entry = some e) : Underway (licence x (s.unit x).body) u e s :=
  ⟨.licence h.sane h.slots runs, h.supplied, alive, entry⟩

/-- A turn that ends dresses what its body defines. -/
theorem serving_turn (orderly : Orderly s) (alive : s.isAlive u = true) (entry : (s.unit u).entry = some e)
    (ends : runBody u s = .ok () t) (defines : (name, body) ∈ (s.unit u).body.functions)
    (replaced : s.Replaces u e name) :
    ∃ v w, t.Serving u e name body v w ∧
      ((s.value v).kept? .wrapper = none → t.form w = .wrapper (t.wrapperOf u e v name)) := by
  have start := orderly.underway alive alive entry
  have dresses := dresses_runBody start ends
  obtain ⟨next, advances⟩ := start.touches dresses.touches
  obtain ⟨v, w, dressed⟩ := dresses.bound _ defines replaced
  have licensed : ∀ f ∈ (s.unit u).body.functions, (licence u (s.unit u).body).define u f.2 := fun f hf =>
    ⟨rfl, Stmt.definitionsAll_of_functionsAll _ hf⟩
  exact ⟨v, w, ⟨next.alive, next.entry, by rwa [advances.unit], advances.replaces replaced, dressed⟩,
    dresses.wrapper start licensed start.named defines dressed⟩

/-- In a turn that ends functions stay dressed, those of the unit because they are dressed again. -/
theorem Outfits.of_turn (orderly : Orderly s) {job : Job} {queue : WorkQueue}
    (hp : s.queue.pop? = some (job, queue)) (runs : s.isAlive job.unit = true)
    (ends : runBody job.unit (s.begun queue job.unit) = .ok () t) : Outfits s t := by
  have begun := orderly.begun hp
  have touches : Touches _ .all (s.begun queue job.unit) _ := touches_runBody job.unit (Realm.closed_all _)
  rw [after_of_ok ends] at touches
  have goes : ∀ {u e}, s.isAlive u = true → (s.unit u).entry = some e →
      Underway _ u e t ∧ Advances u e (s.begun queue job.unit) t := fun alive entry =>
    (begun.underway runs alive entry).touches touches
  have same : ∀ u, s.isAlive u = true → t.unit u = s.unit u := fun u alive =>
    Ages.unit_of_steps begun.sane (begun.sane.licence_sound runs) (steps_of_touches touches) (index_lt_of_isAlive alive)
  refine ⟨⟨same, fun u e name alive entry => (goes alive entry).2.replaces⟩, fun u e name body v w h => ?_,
    fun u e name body v w h form => ?_⟩
  · obtain ⟨next, advances⟩ := goes h.alive h.entry
    have has : (s.begun queue job.unit).hasBody e body := h.hasBody orderly.sane
    have slot := advances.slot _ body _ has h.dressed.slot
    have kept := advances.upholds.wrapper v w h.dressed.kept
    refine ⟨next.alive, next.entry, by rw [advances.unit]; exact h.defines, advances.replaces h.replaced, ?_⟩
    by_cases own : u = job.unit
    · subst own
      obtain ⟨x, y, serving, -⟩ := serving_turn begun runs h.entry ends h.defines h.replaced
      have place := serving.dressed.slot
      rw [advances.unit] at place
      cases slot.symm.trans place
      obtain rfl : w = y := Option.some.inj (kept.symm.trans serving.dressed.kept)
      exact serving.dressed
    · have popped : Minds u s { s with queue } := .of_pop orderly.sane.coherent hp fun _ same => own same.symm
      have waits := popped.waits h.alive
      exact advances.dressed has ⟨h.dressed.slot, h.dressed.kept, h.dressed.prepared.imp_left waits⟩
  · obtain ⟨-, advances⟩ := goes h.alive h.entry
    rw [advances.wrapperOf]
    exact advances.upholds.form w _ form

/-- All turns end and no unit is dropped. -/
def Smooth (es : List Event) : Prop :=
  (∀ turn, .ran turn ∈ es → turn.completed = true) ∧ ∀ units, .dropped units ∉ es

/-- The turn begins in order and ends, and functions stay dressed from then on. -/
structure Turn.Leads (turn : Turn) (s t : Session) : Prop where
  up : Abides s turn.before
  orderly : Orderly turn.before
  alive : turn.before.isAlive turn.unit = true
  ends : runBody turn.unit turn.before = .ok () turn.after
  outfits : Outfits turn.after t

private theorem leads_of_turn {job : Job} {queue : WorkQueue} (orderly : Orderly s)
    (hp : s.queue.pop? = some (job, queue)) (alive : s.isAlive job.unit = true)
    (complete : (turnOf job.unit (s.begun queue job.unit)).completed = true) :
    Outfits s (turnOf job.unit (s.begun queue job.unit)).after ∧
      (turnOf job.unit (s.begun queue job.unit)).Leads s (turnOf job.unit (s.begun queue job.unit)).after := by
  obtain ⟨⟨⟩, ends⟩ := succeeded complete
  have up : Abides s (s.begun queue job.unit) := ⟨fun _ _ => rfl, fun _ _ _ _ _ => id⟩
  exact ⟨.of_turn orderly hp alive ends, up, orderly.begun hp, alive, ends, .refl _⟩

/-- In a run of the queue in which all turns end functions stay dressed, also from each turn on. -/
theorem outfits_drain (c : Cancellation) (stopping : Bool) (processed fuel : Nat) (s : Session) :
    Orderly s → Smooth (drainEvents c stopping processed fuel s) →
      Outfits s (after (drain runBody c stopping processed fuel) s) ∧
        ∀ turn, .ran turn ∈ drainEvents c stopping processed fuel s →
          turn.Leads s (after (drain runBody c stopping processed fuel) s) := by
  refine drain_induct
    (motive := fun s es t => Orderly s → Smooth es → Outfits s t ∧ ∀ turn, .ran turn ∈ es → turn.Leads s t)
    c ?halt ?stop ?pass ?fail ?turn stopping processed fuel s
  case halt => exact fun s _ _ => ⟨.refl s, fun _ ran => nomatch ran⟩
  case stop => exact fun s t _ _ smooth => absurd (List.mem_singleton_self _) (smooth.2 _)
  case pass =>
    intro s t es job queue hp dead rest orderly smooth
    have passes := Outfits.of_pass orderly.sane hp dead
    obtain ⟨later, turns⟩ := rest (orderly.moves (.single (.pass job queue hp dead))) smooth
    refine ⟨passes.trans later, fun turn ran => ?_⟩
    have leads := turns turn ran
    exact { leads with up := passes.toAbides.trans leads.up }
  case fail =>
    intro s job queue hp alive orderly smooth
    obtain ⟨outfits, leads⟩ := leads_of_turn orderly hp alive (smooth.1 _ (List.mem_singleton_self _))
    refine ⟨outfits, fun turn ran => ?_⟩
    cases List.mem_singleton.1 ran
    exact leads
  case turn =>
    intro s r t es job queue hp alive books rest orderly smooth
    obtain ⟨outfits, leads⟩ := leads_of_turn orderly hp alive (smooth.1 _ List.mem_cons_self)
    have next : Orderly r := orderly.moves ((Moves.single (.turn job queue hp alive)).trans (.of_bookkeeping books))
    obtain ⟨later, turns⟩ := rest next
      ⟨fun turn ran => smooth.1 turn (List.mem_cons_of_mem _ ran),
        fun units dropped => smooth.2 units (List.mem_cons_of_mem _ dropped)⟩
    have kept : Outfits _ r := .of_bookkeeping books
    refine ⟨outfits.trans (kept.trans later), fun turn ran => ?_⟩
    rcases List.mem_cons.1 ran with same | ran
    · cases same
      exact { leads with outfits := kept.trans later }
    · have leads := turns turn ran
      exact { leads with up := (outfits.trans kept).toAbides.trans leads.up }

/-- A call of a function that is replaced. The function itself is called too when it is to be analysed, and its
result counts when the replacement has none. -/
def replacedCall (ask : Ask) (v : ValueId) (spec : Specialization) (a : Arguments) (site : Site) :
    Analysis ValueSet := do
  count "specialized_calls" 1
  let result ← runOverride ask a site spec.override
  if spec.analyze then
    let generic ← ask v (.call a.sets a.names) site
    return result.getD generic
  return result.getD .empty

/-- Calls of the wrapper are replaced, unless the replacement leaves them to the function. -/
def Invokes (s : Session) (w v : ValueId) (spec : Specialization) : Prop :=
  spec.override ≠ .transparent → ∀ depth args names site,
    answerWithin (depth + 1) w (.call args names) site s =
      replacedCall (answerWithin depth) v spec ⟨args, names⟩ site s

private theorem invokes_of_form {wrapper : Wrapper} {spec : Specialization} (form : s.form w = .wrapper wrapper)
    (wraps : wrapper.wrapped = some v) (current : s.currentSpecialization wrapper = some spec) : s.Invokes w v spec := by
  intro opinion depth args names site
  have rule : answerWithin (depth + 1) w (.call args names) site s =
      callWrapper (answerWithin depth) wrapper ⟨args, names⟩ site s := by
    simp only [answerWithin, respond, callOf, read_run, form]
  obtain ⟨override, analyze⟩ := spec
  rw [rule]
  simp only [callWrapper, read_run, current, callWrapped, wraps, Option.isSome_some, Bool.and_true]
  cases override with
  | transparent => exact absurd rfl opinion
  | _ => rfl

/-- The function that a unit defines under a name stands in its place, and the name is bound to its wrapper. -/
structure IsReplaced (s : Session) (u : UnitId) (e : EntryId) (name : String) (body : Body) (v w : ValueId)
    (spec : Specialization) : Prop where
  stands : s.Stands e body v
  slot : s.slot (s.unit u).scope body.node.id = some (.single (some v))
  kept : (s.value v).kept? .wrapper = some w
  bound : (ValueSet.single (some w)).members ≤ s.held (.name (s.unit u).scope name)
  found : s.specialization? (s.entry e).module (s.qualifiedName u name) = some spec

theorem Serving.isReplaced (h : s.Serving u e name body v w) (orderly : Orderly s) (idle : s.queue.jobs = []) :
    ∃ spec, s.IsReplaced u e name body v w spec ∧
      (s.form w = .wrapper (s.wrapperOf u e v name) → s.Invokes w v spec) := by
  obtain ⟨spec, found⟩ := Option.ne_none_iff_exists'.1 h.replaced
  obtain ⟨x, same, stands⟩ := orderly.slots.made _ e body _ (h.hasBody orderly.sane) h.dressed.slot
  cases same
  refine ⟨spec, ⟨stands, h.dressed.slot, h.dressed.kept, h.dressed.prepared.resolve_left ?_, found⟩, fun form => ?_⟩
  · intro waits
    obtain ⟨job, mem, -⟩ := WorkQueue.holds_iff.1 waits
    rw [idle] at mem
    cases mem
  · exact invokes_of_form form rfl found

theorem Abides.enqueueEntry (orderly : Orderly s) (e : EntryId) : Abides s (after (enqueueEntry e) s) := by
  have goes : ∀ {u f}, s.isAlive u = true → (s.unit u).entry = some f → Advances u f s (after (Session.enqueueEntry e) s) := by
    intro u f alive entry
    have start : Underway noLicence u f s :=
      ⟨.foreign orderly.sane orderly.slots (noLicence_foreign s), orderly.supplied, alive, entry⟩
    exact (start.touches (.single (.renew e))).2
  refine ⟨fun u alive => ?_, fun u f name alive entry => (goes alive entry).replaces⟩
  have steps : Steps noLicence s (after (Session.enqueueEntry e) s) := .single (.enqueueEntry e)
  exact Ages.unit_of_steps orderly.sane (fun _ _ no => False.elim no) steps (index_lt_of_isAlive alive)

/-- An operation that ends and drops no unit leaves what its turns define dressed. -/
theorem Operation.leads {o : Operation} (orderly : Orderly s) (ends : succeeds o.run s = true)
    (kept : ∀ units, .dropped units ∉ o.events s) {turn : Turn} (ran : .ran turn ∈ o.events s) :
    Orderly (after o.run s) ∧ (after o.run s).queue.jobs = [] ∧ turn.Leads s (after o.run s) := by
  obtain ⟨c, q, n, r, same, drained, books, queued⟩ := o.drained ends ran
  rw [same] at kept ran
  have up : Orderly q ∧ Abides s q := by
    rcases queued with rfl | ⟨f, rfl⟩
    · exact ⟨orderly, (Outfits.refl _).toAbides⟩
    · exact ⟨orderly.moves (.of_stepwise (.enqueueEntry f) s), .enqueueEntry orderly f⟩
  obtain ⟨idle, complete⟩ := drain_ends drained kept
  have leads := (outfits_drain c c.startsRequested 0 drainLimit q up.1 ⟨complete, kept⟩).2 turn ran
  have moves := moves_drain c c.startsRequested 0 drainLimit q
  rw [after_of_ok drained] at leads moves
  refine ⟨(up.1.moves moves).moves (.of_bookkeeping books), by rw [books.queue, idle], ?_⟩
  exact { leads with up := up.2.trans leads.up, outfits := leads.outfits.trans (.of_bookkeeping books) }

/-- What a turn defines is replaced in the end if it is then. -/
theorem Turn.Leads.isReplaced {turn : Turn} (h : turn.Leads s t) (orderly : Orderly t) (idle : t.queue.jobs = [])
    (entry : (turn.before.unit turn.unit).entry = some e)
    (defines : (name, body) ∈ (turn.before.unit turn.unit).body.functions)
    (replaced : turn.before.Replaces turn.unit e name) :
    ∃ v w spec, t.IsReplaced turn.unit e name body v w spec ∧
      ((turn.before.value v).kept? .wrapper = none → t.Invokes w v spec) := by
  obtain ⟨v, w, serving, form⟩ := serving_turn h.orderly h.alive entry h.ends defines replaced
  obtain ⟨spec, isReplaced, invokes⟩ := (h.outfits.serving _ _ _ _ _ _ serving).isReplaced orderly idle
  exact ⟨v, w, spec, isReplaced, fun free => invokes (h.outfits.form _ _ _ _ _ _ serving (form free))⟩

theorem Orderly.create {options : Options} {host : Host} {hostRequests : List Request} {s : Session}
    (made : create options host hostRequests = .ok s) : Orderly s := by
  have blank : Orderly (blank options host hostRequests) :=
    ⟨sane_blank options host hostRequests, slots_blank options host hostRequests,
      ⟨by rintro _ _ _ ⟨⟩, by rintro _ _ _ ⟨⟩, by rintro _ _ ⟨⟩⟩⟩
  exact blank.moves (moves_create made)

theorem Orderly.afterAll (h : Orderly s) {ops : List Operation} (fits : Fitting ops s) : Orderly (afterAll ops s) :=
  h.moves (moves_of_fitting ops h.sane fits)

end Typeflow.Session
