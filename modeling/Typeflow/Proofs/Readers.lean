import Typeflow.Proofs.Dependence.Life
import Typeflow.Proofs.History

/-! No reader is lost: a unit that may run waits, or is still among the readers of all that it read in its
last turn. -/
namespace Typeflow.Session

/-- The turn is the last one of its unit, and no run was cancelled after it. -/
def Turn.IsLast (turn : Turn) (events : List Event) : Prop :=
  ∃ pre post, events = pre ++ .ran turn :: post ∧
    (∀ other, .ran other ∈ post → other.unit ≠ turn.unit) ∧ ∀ units, .dropped units ∉ post

/-- In the turn the unit becomes a reader of the record in a place, which has some types then. -/
def Turn.Reads (turn : Turn) (place : Place) (x : VarId) (types : ValueSet) : Prop :=
  let L := licence turn.unit (turn.before.unit turn.unit).body
  ∃ s, Steps L turn.before s ∧ s.recordAt? place = some x ∧ x.index < s.records.size ∧
    s.types x = types ∧ Steps L (Session.after (addReader x turn.unit) s) turn.after

private theorem depends_addReader {s : Session} {u : UnitId} {place : Place} {x : VarId}
    (alive : s.isAlive u = true) (stored : s.recordAt? place = some x)
    (inRange : x.index < s.records.size) :
    (after (addReader x u) s).Depends u place x (s.types x) := by
  have look : (after (addReader x u) s).var x = (s.var x).addReader s.isAlive u :=
    (Fills.var_modify s x x _).trans (if_pos ⟨rfl, inRange⟩)
  refine ⟨by cases place <;> exact stored, ?_, ?_⟩
  · rw [look]
    exact Variable.mem_addReader alive
  · rw [types, look]
    exact Variable.types_addReader _ _ _

/-- What a unit read in its last turn it still heeds. -/
theorem Moves.heeds {s t : Session} {es : List Event} {turn : Turn} (hs : Sane s) (hm : Moves s es t)
    (last : turn.IsLast es) {place : Place} {x : VarId} {types : ValueSet}
    (reads : turn.Reads place x types) : t.Heeds turn.unit place x types := by
  obtain ⟨pre, post, hes, latest, kept⟩ := last
  obtain ⟨r, q, earlier, now, later⟩ := hm.split hes
  obtain ⟨job, queue, hp, alive, rfl, rfl⟩ := now.of_ran
  let u := job.unit
  let L := licence u ((r.begun queue u).unit u).body
  have start : Sane (r.begun queue u) := (hs.moves earlier).begun hp
  have sound : L.Sound (r.begun queue u) := start.licence_sound alive
  have inRange : u.index < (r.begun queue u).units.size := index_lt_of_isAlive alive
  obtain ⟨m, before, stored, there, rfl, rest⟩ := reads
  obtain ⟨saneBefore, soundBefore⟩ := start.steps sound before
  have read : Step L m (after (addReader x u) m) := .addReader x u
  have saneRead := saneBefore.step soundBefore read
  have soundRead := soundBefore.step saneBefore.coherent read
  have saneAfter := (saneRead.steps soundRead rest).1
  have range : u.index < (after (addReader x u) m).units.size :=
    Nat.lt_of_lt_of_le inRange (Ages.of_steps start sound before).units
  have ages : Ages m t := (Ages.of_step saneBefore.coherent read).trans
    ((Ages.of_steps saneRead soundRead rest).trans (Ages.of_moves saneAfter later))
  have minds : Minds u (after (addReader x u) m) t :=
    (Minds.of_steps saneRead soundRead range rest).trans
      (Minds.of_moves saneAfter
        (Nat.lt_of_lt_of_le range (Ages.of_steps saneRead soundRead rest).units) later latest kept)
  intro ha
  exact minds.depends ha place x _ (depends_addReader (ages.wasAlive range ha) stored there)

/-- After whatever callers do, if no run was cancelled since the last turn of a unit: the unit is retired,
or it waits, or it is listed as a reader of what is stored now in every place that it read in that
turn. -/
theorem no_reader_is_lost {options : Options} {host : Host} {hostRequests : List Request}
    {s : Session} (made : create options host hostRequests = .ok s) {ops : List Operation}
    (fits : Fitting ops s) {turn : Turn} (last : turn.IsLast (eventsOf ops s))
    (alive : (afterAll ops s).isAlive turn.unit = true) {place : Place} {x : VarId} {types : ValueSet}
    (reads : turn.Reads place x types) :
    (afterAll ops s).job turn.unit ∈ (afterAll ops s).queue.jobs ∨
      ∃ y, (afterAll ops s).recordAt? place = some y ∧
        turn.unit ∈ ((afterAll ops s).var y).readers := by
  have start : Sane s := (sane_blank options host hostRequests).moves (moves_create made)
  have whole := moves_of_fitting ops start fits
  rcases whole.heeds start last reads alive with waits | depends
  · exact .inl ((start.moves whole).coherent.mem_of_holds alive waits)
  · exact .inr ⟨x, depends.stored, depends.reader⟩

/-- The values of a name among the builtins. -/
def builtinNamed (id : String) (site : Site) : Analysis ValueSet := do
  match ← builtinsModule with
  | none => return .empty
  | some m => answer m (.member id) site

/-- A body that begins with a name that is bound nowhere registers to read the name of its module first. -/
theorem after_runBody_unbound {s t : Session} {u : UnitId} {mark at_ : Mark} {id : String}
    {rest : List Stmt} {x : VarId} (body : (s.unit u).body.statements = .expr mark (.name at_ id) :: rest)
    (unbound : s.visibleName? (s.unit u).scope id = none)
    (named : nameIn (s.moduleScope (s.unit u).scope) id s = .ok x t) :
    after (runBody u) s =
      after (builtinNamed id ⟨at_.node .name, u⟩ >>= fun _ => walkAll u rest)
        (after (addReader x u) t) := by
  let site : Site := ⟨at_.node .name, u⟩
  have looks : lookupName id site s = builtinNamed id site (after (addReader x u) t) := by
    have hidden : s.visibleName? (s.scopeAt site) id = none := unbound
    have run : lookupName id site s =
        (nameIn (s.moduleScope (s.unit u).scope) id >>= fun x =>
          addReader x u >>= fun _ => builtinNamed id site) s := by
      simp only [lookupName, read_run, hidden]
      rfl
    rw [run, bind_of_ok named]
    rfl
  have whole : runBody u s = (lookupName id site >>= fun _ => walkAll u rest) s := by
    change walkAll u (s.unit u).body.statements s = _
    rw [body, walkAll, walk, evaluate, bind_assoc]
    rfl
  rw [after, whole, ← after]
  simp only [after, bind, EStateM.bind, looks, site]

/-- A body that begins with a name that is bound nowhere reads the name of its module. -/
theorem reads_unbound {s : Session} {u : UnitId} {mark at_ : Mark} {id : String} {rest : List Stmt}
    (body : (s.unit u).body.statements = .expr mark (.name at_ id) :: rest)
    (unbound : s.visibleName? (s.unit u).scope id = none)
    (free : s.findName? (s.moduleScope (s.unit u).scope) id = none)
    (inRange : (s.moduleScope (s.unit u).scope).index < s.scopes.size) :
    (turnOf u s).Reads (.name (s.moduleScope (s.unit u).scope) id) ⟨s.records.size⟩ .empty := by
  let c := s.moduleScope (s.unit u).scope
  let x : VarId := ⟨s.records.size⟩
  let L := licence u (s.unit u).body
  have named : nameIn c id s = .ok x (s.withName c id) := nameIn_of_none free
  have places : ∀ n ∈ (s.unit u).body.places, L.keep n := fun _ h => h
  have definitions : ∀ b ∈ (s.unit u).body.definitions, L.define u b := fun _ h => ⟨rfl, h⟩
  rw [Body.places, body, Stmt.placesAll, List.forall_mem_append] at places
  rw [Body.definitions, body, Stmt.definitionsAll, List.forall_mem_append] at definitions
  have kept : L.keep at_.id := places.1 _ (List.mem_singleton_self at_.id)
  have finds : Stepwise L (builtinNamed id ⟨at_.node .name, u⟩) := by
    refine .bind .builtinsModule fun m => ?_
    cases m with
    | none => exact .pure _
    | some m => exact .answer kept m _
  have follows : Stepwise L (builtinNamed id ⟨at_.node .name, u⟩ >>= fun _ => walkAll u rest) :=
    .bind finds fun _ => .walkAll rest places.2 definitions.2
  refine ⟨s.withName c id, ?_, ?_, ?_, ?_, ?_⟩
  · have step : Step L s (after (nameIn c id) s) := .nameIn c id
    rw [after_of_ok named] at step
    exact .single step
  · rw [recordAt?, findName?_withName, if_pos ⟨⟨rfl, inRange⟩, rfl⟩]
  · simp [withName]
  · rw [types, show (s.withName c id).var x = _ from Fills.var_push s (s.scope c).cap x, if_pos rfl]
  · have steps := follows (after (addReader x u) (s.withName c id))
    rw [← after_runBody_unbound body unbound named] at steps
    exact steps

/-- Whether a turn is that of a unit whose body begins with a name that is bound nowhere. -/
def Event.namesUnbound (u : UnitId) : Event → Bool
  | .dropped _ => false
  | .ran turn =>
    let s := turn.before
    let c := s.moduleScope (s.unit u).scope
    match (s.unit u).body.statements with
    | .expr _ (.name _ id) :: _ =>
      turn.unit = u && (s.visibleName? (s.unit u).scope id).isNone && (s.findName? c id).isNone &&
        decide (c.index < s.scopes.size)
    | _ => false

/-- A module that reads a name that nobody binds, and is queued again in the end. -/
def readingModule : List Operation :=
  let tree : Tree := { mark := {}, body := [.expr {} (.name {} "x")] }
  [.addModule "m" "/m.py", .replaceTree ⟨0⟩ tree, .analyzeEntry ⟨0⟩ .never, .enqueueEntry ⟨0⟩]

/-- The name that the module has read is gone in the end, but its unit waits. -/
theorem no_reader_is_lost_reading :
    ∃ turn place x types, eventsOf readingModule bare = [.ran turn] ∧ turn.Reads place x types ∧
      ((afterAll readingModule bare).job turn.unit ∈ (afterAll readingModule bare).queue.jobs ∨
        ∃ y, (afterAll readingModule bare).recordAt? place = some y ∧
          turn.unit ∈ ((afterAll readingModule bare).var y).readers) := by
  obtain ⟨fits, alive, reading⟩ : Fitting readingModule bare ∧
      (afterAll readingModule bare).isAlive ⟨0⟩ = true ∧
      (eventsOf readingModule bare).map (Event.namesUnbound ⟨0⟩) = [true] := by decide +kernel
  obtain ⟨event, events, names⟩ := List.map_eq_singleton_iff.1 reading
  have whole := moves_of_fitting readingModule
    ((sane_blank {} {} []).moves (moves_create create_bare)) fits
  cases event with
  | dropped units => cases names
  | ran turn =>
    obtain ⟨r, q, -, now, -⟩ := whole.split (events.trans (List.nil_append _).symm)
    obtain ⟨⟨u, scope, node⟩, queue, -, -, rfl, -⟩ := now.of_ran
    simp only [Event.namesUnbound] at names
    split at names
    · next mark at_ id rest body =>
      simp only [Bool.and_eq_true, decide_eq_true_eq, Option.isNone_iff_eq_none] at names
      obtain ⟨⟨⟨same, unbound⟩, free⟩, inRange⟩ := names
      obtain rfl : u = ⟨0⟩ := same
      have reads := reads_unbound body unbound free inRange
      refine ⟨_, _, _, _, events, reads, ?_⟩
      refine no_reader_is_lost create_bare fits ⟨[], [], events, ?_, ?_⟩ alive reads
      · simp
      · simp
    · cases names

end Typeflow.Session
