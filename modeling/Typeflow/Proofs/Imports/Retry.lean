import Typeflow.Proofs.Imports.Missed
import Typeflow.Proofs.Readers

/-! An import that failed is retried when its module appears: the unit that missed the name goes on
watching it, or waits to be run again. -/
namespace Typeflow.Session

variable {s t : Session} {u : UnitId} {name : String} {turn : Turn}

/-- Whatever callers do, units go on watching, unless a module is added. -/
theorem Watchful.operation {o : Operation} (other : ∀ name path, o ≠ .addModule name path) (s : Session) :
    Watchful s (after o.run s) := by
  have evaluation : o.evaluates → Watchful s (after o.run s) := fun h => of_evaluates h s
  cases o with
  | addModule name path => exact absurd rfl (other name path)
  | removeModule e => exact of_within (manages.removeModule e) s
  | reload => exact reload s
  | specialize request => exact of_within (refreshes.fulfil request) s
  | installFor name => exact of_within (refreshes.installFor name) s
  | installEvery => exact of_within refreshes.installEvery s
  | _ => exact evaluation trivial

/-- A turn that ends watches what it missed. -/
theorem Turn.watches_missed (same : turn = turnOf turn.unit turn.before) (complete : turn.completed = true)
    (hu : turn.unit.index < turn.before.units.size) (alive : turn.after.isAlive turn.unit = true)
    (missed : name ∈ turn.missed) (named : name ≠ "") : turn.after.Watches turn.unit name := by
  obtain ⟨u, s, t, completed⟩ := turn
  obtain ⟨rfl, rfl⟩ : t = Session.after (runBody u) s ∧ completed = succeeds (runBody u) s := by
    simpa [turnOf] using same
  obtain ⟨a, ends⟩ := succeeded complete
  exact (Marks.walkAll (s.unit u).body.statements).marks s a _ ends hu alive name missed named

/-- The unit waits, or it watches the name, as long as it may run. -/
def Expects (s : Session) (u : UnitId) (name : String) : Prop :=
  s.isAlive u = true → s.queue.holds (s.job u) = true ∨ s.Watches u name

/-- After an operation the units that it ran expect what they missed. -/
theorem Operation.expects_missed {o : Operation} (hs : Sane s) (fits : o.Fits s)
    (ran : .ran turn ∈ o.events s) (complete : turn.completed = true) (missed : name ∈ turn.missed)
    (named : name ≠ "") :
    turn.unit.index < (after o.run s).units.size ∧ (after o.run s).Expects turn.unit name := by
  have moves := o.moves hs fits
  have later : Watchful turn.after (after o.run s) := .of_all (fun _ _ => id) (Watchful.covers.since ran).2.2
  have same := moves.turn_eq ran
  obtain ⟨-, before, -⟩ := moves.turn_begins hs ran
  have inRange := index_lt_of_isAlive before
  have size : turn.unit.index < turn.after.units.size := by
    have body := (Marks.walkAll (u := turn.unit)
      (turn.before.unit turn.unit).body.statements).watchful turn.before
    rw [congrArg Turn.after same]
    exact Nat.lt_of_lt_of_le inRange body.size
  refine ⟨Nat.lt_of_lt_of_le size later.size, fun alive => .inr ?_⟩
  have watches := turn.watches_missed same complete inRange (later.alive size alive) missed named
  exact later.watches turn.unit name size alive watches

/-- A unit goes on expecting in an operation that does not run it and drops nothing that waits. -/
theorem Expects.operation {o : Operation} (h : s.Expects u name) (hs : Sane s) (fits : o.Fits s)
    (hu : u.index < s.units.size) (latest : ∀ turn, .ran turn ∈ o.events s → turn.unit ≠ u)
    (kept : ∀ units, .dropped units ∉ o.events s) : (after o.run s).Expects u name := by
  intro alive
  have moves := o.moves hs fits
  have minds := Minds.of_moves hs hu moves latest kept
  rcases h (minds.alive alive) with waits | watches
  · exact .inl (minds.waits alive waits)
  · cases o with
    | addModule other path =>
      have run : after (Operation.addModule other path).run s = after (addModule other path) s :=
        after_ignore _ s
      rw [run] at alive ⊢
      have woken := watches_addModule hu alive watches
      split at woken
      · exact .inl woken
      · exact .inr woken
    | _ => exact .inr ((Watchful.operation (by nofun) s).watches u name hu alive watches)

theorem Expects.afterAll {ops : List Operation} (h : s.Expects u name) (hs : Sane s)
    (fits : Fitting ops s) (hu : u.index < s.units.size)
    (latest : ∀ turn, .ran turn ∈ eventsOf ops s → turn.unit ≠ u)
    (kept : ∀ units, .dropped units ∉ eventsOf ops s) : (afterAll ops s).Expects u name := by
  induction ops generalizing s with
  | nil => exact h
  | cons o rest ih =>
    have moves := o.moves hs fits.1
    refine ih (h.operation hs fits.1 hu ?_ ?_) (hs.moves moves) fits.2 ?_ ?_ ?_
    · exact fun turn mem => latest turn (List.mem_append_left _ mem)
    · exact fun units mem => kept units (List.mem_append_left _ mem)
    · exact Nat.lt_of_lt_of_le hu (Ages.of_moves hs moves).units
    · exact fun turn mem => latest turn (List.mem_append_right _ mem)
    · exact fun units mem => kept units (List.mem_append_right _ mem)

/-- A unit expects what it missed in its last turn. -/
theorem expects_afterAll {ops : List Operation} (hs : Sane s) (fits : Fitting ops s)
    (last : turn.IsLast (eventsOf ops s)) (complete : turn.completed = true) (missed : name ∈ turn.missed)
    (named : name ≠ "") :
    turn.unit.index < (afterAll ops s).units.size ∧ (afterAll ops s).Expects turn.unit name := by
  induction ops generalizing s with
  | nil =>
    obtain ⟨pre, post, events, -⟩ := last
    simp [eventsOf] at events
  | cons o rest ih =>
    have moves := o.moves hs fits.1
    have sane := hs.moves moves
    obtain ⟨pre, post, events, latest, kept⟩ := last
    rw [eventsOf, List.append_eq_append_iff] at events
    -- The turn is in a later operation, or in this one and not in later ones.
    rcases events with ⟨before, -, events⟩ | ⟨since, own, events⟩
    · exact ih sane fits.2 ⟨before, post, events, latest, kept⟩
    · cases since with
      | nil => exact ih sane fits.2 ⟨[], post, events.symm, latest, kept⟩
      | cons event more =>
        obtain ⟨rfl, rfl⟩ := List.cons.inj events
        have ran : .ran turn ∈ o.events s := by simp [own]
        obtain ⟨inRange, expects⟩ := o.expects_missed hs fits.1 ran complete missed named
        have later := moves_of_fitting rest sane fits.2
        refine ⟨Nat.lt_of_lt_of_le inRange (Ages.of_moves sane later).units, ?_⟩
        exact expects.afterAll sane fits.2 inRange
          (fun turn mem => latest turn (List.mem_append_right _ mem))
          fun units mem => kept units (List.mem_append_right _ mem)

/-- Adding a module retires no unit. -/
theorem unit_addModule (hs : Sane s) (hu : u.index < s.units.size) (name path : String) :
    (after (addModule name path) s).unit u = s.unit u := by
  have sane := hs.move (.addEntry name path)
  have steps := Stepwise.registerModule (L := noLicence) ⟨s.entries.size⟩ name path (s.withEntry name path)
  exact Ages.unit_of_steps sane (fun _ _ no => False.elim no) steps hu

/-- After whatever callers do, if no run was cancelled since the last turn of a unit and this turn ended:
when the unit is not retired and a module is added under a name that the turn asked for in vain, the unit
waits. -/
theorem missed_import_is_retried {options : Options} {host : Host} {hostRequests : List Request}
    {s : Session} (made : create options host hostRequests = .ok s) {ops : List Operation}
    (fits : Fitting ops s) {turn : Turn} (last : turn.IsLast (eventsOf ops s))
    (complete : turn.completed = true) (alive : (afterAll ops s).isAlive turn.unit = true) {name : String}
    (missed : name ∈ turn.missed) (named : name ≠ "") (path : String) :
    let t := after (addModule name path) (afterAll ops s)
    t.job turn.unit ∈ t.queue.jobs := by
  intro t
  let q := afterAll ops s
  have start : Sane s := (sane_blank options host hostRequests).moves (moves_create made)
  have sane : Sane q := start.moves (moves_of_fitting ops start fits)
  have moves := Operation.moves_addModule name path q
  obtain ⟨inRange, expects⟩ := expects_afterAll start fits last complete missed named
  have there : t.isAlive turn.unit = true := by
    rw [isAlive, unit_addModule sane inRange]
    exact alive
  have waits : t.queue.holds (t.job turn.unit) = true := by
    rcases expects alive with waits | watches
    · have minds : Minds turn.unit q t := .of_moves sane inRange moves (by simp) (by simp)
      exact minds.waits there waits
    · have woken := watches_addModule inRange there watches
      rwa [if_pos ⟨rfl, named⟩] at woken
  exact (sane.moves moves).coherent.mem_of_holds there waits

/-- Whether a turn of the first unit ended and asked for the name in vain. -/
def Event.misses (name : String) : Event → Bool
  | .dropped _ => false
  | .ran turn => decide (turn.unit = ⟨0⟩) && turn.completed && decide (name ∈ turn.missed)

/-- A module that imports another one below a package, neither of which is there. -/
def importingModule : List Operation :=
  let tree : Tree := { mark := {}, body := [.importFrom {} "pkg" 0 [⟨"sub", "s"⟩]] }
  [.addModule "m" "/m.py", .replaceTree ⟨0⟩ (some tree), .analyzeEntry ⟨0⟩ .never]

/-- When the module below the package is added, the one that imports it waits. -/
theorem missed_import_is_retried_importing :
    ∃ turn, eventsOf importingModule bare = [.ran turn] ∧ "pkg.sub" ∈ turn.missed ∧
      let t := after (addModule "pkg.sub" "/pkg/sub.py") (afterAll importingModule bare)
      t.job turn.unit ∈ t.queue.jobs := by
  obtain ⟨fits, alive, misses⟩ : Fitting importingModule bare ∧
      (afterAll importingModule bare).isAlive ⟨0⟩ = true ∧
      (eventsOf importingModule bare).map (Event.misses "pkg.sub") = [true] := by decide +kernel
  obtain ⟨event, events, missing⟩ := List.map_eq_singleton_iff.1 misses
  cases event with
  | dropped units => cases missing
  | ran turn =>
    simp only [Event.misses, Bool.and_eq_true, decide_eq_true_eq] at missing
    obtain ⟨⟨first, complete⟩, missed⟩ := missing
    have last : turn.IsLast (eventsOf importingModule bare) := ⟨[], [], events, by simp, by simp⟩
    rw [← first] at alive
    refine ⟨turn, events, missed, ?_⟩
    exact missed_import_is_retried create_bare fits last complete alive missed (by decide) "/pkg/sub.py"

end Typeflow.Session
