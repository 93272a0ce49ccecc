import Typeflow.Proofs.Sane
import Typeflow.Proofs.Step.Lifecycle

/-! Histories of sessions: the operations that callers carry out one after the other, and the moves
that they consist of. -/
namespace Typeflow.Session

/-- A question asked from outside the program, at a node of its own. -/
def inquire (v : ValueId) (q : Question) : Analysis ValueSet := do
  let u ← newObserver
  let node ← freshNode .passStmt
  answer v q ⟨node, u⟩

/-- What callers may ask of a session. -/
inductive Operation where
  | addModule (name path : String)
  | removeModule (e : Option EntryId)
  | replaceTree (e : EntryId) (tree : Option Tree)
  | enqueueEntry (e : EntryId)
  | enqueueUnit (u : UnitId) (place : QueueEnd)
  | analyzeQueued (c : Cancellation)
  | analyzeEntry (e : EntryId) (c : Cancellation)
  | setReporting (interval : Option Nat)
  | reload
  /-- Registers a replacement for a function. -/
  | specialize (request : Request)
  /-- Installs the replacements that wait for a module again. -/
  | installFor (name : String)
  | installEvery
  | addResource (path : String)
  | removeResource (r : Option ResourceId)
  | setResourceObjects (r : ResourceId) (objects : NameMap (Option ObjectId))
  | releaseRetired
  | inquire (v : ValueId) (q : Question)
  | importName (name : String) (bottom : Bool)
  | listMembers (names : List String) (members : Bool)

namespace Operation

/-- What an operation does. -/
def run : Operation → Analysis Unit
  | addModule name path => do let _ ← Session.addModule name path
  | removeModule e => Session.removeModule e
  | replaceTree e tree => Session.replaceTree e tree
  | enqueueEntry e => Session.enqueueEntry e
  | enqueueUnit u place => Session.enqueue u place
  | analyzeQueued c => do let _ ← Session.analyzeQueued c
  | analyzeEntry e c => Session.analyzeEntry e c
  | setReporting interval => Session.setReporting interval
  | reload => Session.reload
  | specialize request => fulfil request
  | installFor name => Session.installFor name
  | installEvery => Session.installEvery
  | addResource path => do let _ ← Session.addResource path
  | removeResource r => Session.removeResource r
  | setResourceObjects r objects => Session.setResourceObjects r objects
  | releaseRetired => do let _ ← Session.releaseRetired
  | inquire v q => do let _ ← Session.inquire v q
  | importName name bottom => do let _ ← importDotted name bottom
  | listMembers names members => do let _ ← membersOffered names members

/-- What happens to units in an operation. -/
def events : Operation → Session → List Event
  | analyzeQueued c, s => drainEvents c c.startsRequested 0 drainLimit s
  | analyzeEntry e c, s =>
    drainEvents c c.startsRequested 0 drainLimit (after (Session.enqueueEntry e) s)
  | _, _ => []

/-- The module that an operation changes. -/
def changes? : Operation → Option EntryId
  | replaceTree e _ => some e
  | removeModule e => e
  | _ => none

/-- Only modules that there are can be changed. -/
def Fits (o : Operation) (s : Session) : Prop := ∀ e ∈ o.changes?, e.index < s.entries.size

instance (o : Operation) (s : Session) : Decidable (o.Fits s) :=
  inferInstanceAs (Decidable (∀ e ∈ o.changes?, e.index < s.entries.size))

end Operation

/-- The session after some operations. Those that fail leave behind what they did. -/
def afterAll : List Operation → Session → Session
  | [], s => s
  | o :: rest, s => afterAll rest (after o.run s)

/-- What happens to units in some operations. -/
def eventsOf : List Operation → Session → List Event
  | [], _ => []
  | o :: rest, s => o.events s ++ eventsOf rest (after o.run s)

/-- Each operation fits the session in which it is carried out. -/
def Fitting : List Operation → Session → Prop
  | [], _ => True
  | o :: rest, s => o.Fits s ∧ Fitting rest (after o.run s)

instance decidableFitting : ∀ ops s, Decidable (Fitting ops s)
  | [], _ => .isTrue trivial
  | _ :: rest, _ => @instDecidableAnd _ _ inferInstance (decidableFitting rest _)

theorem afterAll_append (ops more : List Operation) (s : Session) :
    afterAll (ops ++ more) s = afterAll more (afterAll ops s) := by
  induction ops generalizing s with
  | nil => rfl
  | cons o rest ih => exact ih _

theorem eventsOf_append (ops more : List Operation) (s : Session) :
    eventsOf (ops ++ more) s = eventsOf ops s ++ eventsOf more (afterAll ops s) := by
  induction ops generalizing s with
  | nil => rfl
  | cons o rest ih => simp only [List.cons_append, eventsOf, afterAll, ih, List.append_assoc]

theorem fitting_append (ops more : List Operation) (s : Session) :
    Fitting (ops ++ more) s ↔ Fitting ops s ∧ Fitting more (afterAll ops s) := by
  induction ops generalizing s with
  | nil => simp [Fitting, afterAll]
  | cons o rest ih => simp only [List.cons_append, Fitting, afterAll, ih, and_assoc]

/-- What happens in an action and what follows it when it succeeds. -/
theorem Moves.bind {α β : Type} {m : Analysis α} {f : α → Analysis β} {s : Session} {es : List Event}
    (h : Moves s es (Session.after m s))
    (rest : ∀ a t, m s = .ok a t → Moves t [] (Session.after (f a) t)) :
    Moves s es (Session.after (m >>= f) s) := by
  cases hm : m s with
  | ok a t =>
    rw [after_of_ok hm] at h
    rw [after_bind_of_ok hm]
    simpa using h.trans (rest a t hm)
  | error e t =>
    rw [after_of_error hm] at h
    rwa [after_bind_of_error hm]

/-- What is done by steps that need no licence, after an action. -/
theorem Moves.followed {α β : Type} {m : Analysis α} {f : α → Analysis β} {s : Session}
    {es : List Event} (h : Moves s es (Session.after m s)) (rest : ∀ a, Stepwise noLicence (f a)) :
    Moves s es (Session.after (m >>= f) s) :=
  h.bind fun a t _ => .of_stepwise (rest a) t

namespace Operation

variable {s : Session}

/-- A number that was just taken is that of no body. -/
theorem foreign_free (h : Sane s) :
    (⟨fun n => n = ⟨s.nextNode⟩, fun _ _ => False⟩ : Licence).Foreign
      { s with nextNode := s.nextNode + 1 } := by
  refine { below := ?_, keep := ?_, define := fun _ _ no => no }
  · rintro n rfl
    exact Nat.lt_succ_self _
  · rintro n rfl ⟨e, body, ⟨tree, current, hb⟩, same⟩
    have below := h.numbered.bodyBelow e tree current body hb
    rw [same] at below
    exact Nat.lt_irrefl _ below

private theorem moves_inquire (h : Sane s) (v : ValueId) (q : Question) :
    Moves s [] (after (Session.inquire v q) s) := by
  have observed : Moves s [] s.withObserver := .single .observe
  have sane := h.moves observed
  let node : Node := ⟨.passStmt, { id := ⟨s.withObserver.nextNode⟩ }⟩
  let t : Session := { s.withObserver with nextNode := s.withObserver.nextNode + 1 }
  have taken : Moves s.withObserver [] t := .single .takeNode
  let L : Licence := ⟨fun n => n = node.id, fun _ _ => False⟩
  have answers : Stepwise L (answer v q ⟨node, ⟨s.units.size⟩⟩) := by
    refine Stepwise.answer ?_ v q
    exact (rfl : node.id = node.id)
  have asked : Moves t [] (after (answer v q ⟨node, ⟨s.units.size⟩⟩) t) :=
    .single (.change (foreign_free sane) (answers t))
  have numbered : freshNode .passStmt s.withObserver = .ok node t := rfl
  rw [Session.inquire, after_bind_of_ok (newObserver_run s), after_bind_of_ok numbered]
  exact (observed.trans_nil taken).trans_nil asked

theorem moves_addModule (name path : String) (s : Session) :
    Moves s [] (after (Session.addModule name path) s) :=
  (Moves.single (.addEntry name path)).trans_nil
    (.of_stepwise (Stepwise.registerModule ⟨s.entries.size⟩ name path) _)

theorem moves_analyzeQueued (c : Cancellation) (s : Session) :
    Moves s (drainEvents c c.startsRequested 0 drainLimit s) (after (Session.analyzeQueued c) s) := by
  have drained := moves_drain c c.startsRequested 0 drainLimit s
  simpa using drained.trans (.of_bookkeeping (bookkeeping_analyzeQueued c s))

theorem after_analyzeEntry (e : EntryId) (c : Cancellation) (s : Session) :
    after (Session.analyzeEntry e c) s =
      after (Session.analyzeQueued c) (after (Session.enqueueEntry e) s) := by
  have run : after (Session.analyzeEntry e c) s =
      after (Session.analyzeQueued c >>= fun _ => pure ()) (after (Session.enqueueEntry e) s) :=
    after_seq (total_enqueueEntry e) s
  rw [run]
  exact after_ignore _ _

theorem moves_analyzeEntry (e : EntryId) (c : Cancellation) (s : Session) :
    Moves s (drainEvents c c.startsRequested 0 drainLimit (after (Session.enqueueEntry e) s))
      (after (Session.analyzeEntry e c) s) := by
  have queued : Moves s [] (after (Session.enqueueEntry e) s) := .of_stepwise (.enqueueEntry e) s
  rw [after_analyzeEntry]
  exact queued.trans (moves_analyzeQueued c _)

private theorem moves_removeModule (e : Option EntryId) (s : Session) :
    Moves s [] (after (Session.removeModule e) s) := by
  cases e with
  | none => exact .refl
  | some e => exact .single (.removeModule e)

/-- Every operation consists of moves. -/
theorem moves (o : Operation) (h : Sane s) (fits : o.Fits s) : Moves s (o.events s) (after o.run s) := by
  cases o with
  | addModule name path => exact (moves_addModule name path s).followed fun _ => .pure _
  | removeModule e => exact moves_removeModule e s
  | replaceTree e tree => exact .single (.replaceTree e tree (fits e rfl))
  | enqueueEntry e => exact .of_stepwise (.enqueueEntry e) s
  | enqueueUnit u place => exact .of_stepwise (.enqueue u place) s
  | analyzeQueued c => exact (moves_analyzeQueued c s).followed fun _ => .pure _
  | analyzeEntry e c => exact moves_analyzeEntry e c s
  | setReporting interval => exact .of_bookkeeping (by constructor <;> rfl)
  | reload => exact .of_stepwise .reload s
  | specialize request => exact .of_stepwise (.fulfil request) s
  | installFor name => exact .of_stepwise (.installFor name) s
  | installEvery => exact .of_stepwise .installEvery s
  | addResource path => exact .of_stepwise (.bind (.addResource path) fun _ => .pure _) s
  | removeResource r => exact .of_stepwise (.removeResource r) s
  | setResourceObjects r objects => exact .of_stepwise (.setResourceObjects r objects) s
  | releaseRetired => exact (Moves.single .release).followed fun _ => .pure _
  | inquire v q => exact (moves_inquire h v q).followed fun _ => .pure _
  | importName name bottom => exact .of_stepwise (.bind (.importDotted name bottom) fun _ => .pure _) s
  | listMembers names members =>
    exact .of_stepwise (.bind (.membersOffered names members) fun _ => .pure _) s

end Operation

/-- A history consists of moves. -/
theorem moves_of_fitting (ops : List Operation) {s : Session} (h : Sane s) (fits : Fitting ops s) :
    Moves s (eventsOf ops s) (afterAll ops s) := by
  induction ops generalizing s with
  | nil => exact .refl
  | cons o rest ih =>
    have first := o.moves h fits.1
    exact first.trans (ih (h.moves first) fits.2)

/-- A session without anything in it. -/
def blank (options : Options) (host : Host) (hostRequests : List Request) : Session :=
  { options, host, hostRequests, log := { switches := options.log } }

theorem sane_blank (options : Options) (host : Host) (hostRequests : List Request) :
    Sane (blank options host hostRequests) := by
  have dead : ∀ u, (blank options host hostRequests).isAlive u = false := fun _ => rfl
  have noTree : ∀ e, ((blank options host hostRequests).entry e).tree = none := fun _ => rfl
  constructor
  case coherent =>
    constructor
    case owned =>
      intro _ _ h
      cases h
    case modules => exact fun _ h => absurd h (Nat.not_lt_zero _)
    case moduleOf =>
      intro _ _ h
      cases h
    case unitScope => exact fun _ h => absurd h (Nat.not_lt_zero _)
    case code =>
      intro _ _ h
      cases h
    case definitions =>
      intro _ _ h
      cases h
    case observer => exact fun u h => absurd (dead u ▸ h) Bool.false_ne_true
    case placed => exact fun u _ h => absurd (dead u ▸ h) Bool.false_ne_true
    case apart => exact fun u _ h => absurd (dead u ▸ h) Bool.false_ne_true
    case waiting =>
      intro _ h
      cases h
  case numbered =>
    refine ⟨fun e _ h => ?_, fun e _ h => ?_, fun e _ _ _ h => ?_, fun e _ _ _ h => ?_, fun e _ h => ?_⟩
    all_goals exact absurd ((noTree e).symm.trans h) (by simp)

/-- A new session is an empty one in which what is always there was loaded. -/
theorem steps_create {options : Options} {host : Host} {hostRequests : List Request} {s : Session}
    (h : create options host hostRequests = .ok s) :
    Steps noLicence (blank options host hostRequests) s := by
  unfold create EStateM.run at h
  cases hl : load (blank options host hostRequests) with
  | ok a t =>
    rw [blank] at hl
    rw [hl] at h
    cases h
    rw [← after_of_ok hl]
    exact Stepwise.load _
  | error e t =>
    rw [blank] at hl
    rw [hl] at h
    cases h

theorem moves_create {options : Options} {host : Host} {hostRequests : List Request} {s : Session}
    (h : create options host hostRequests = .ok s) : Moves (blank options host hostRequests) [] s :=
  .single (.change (noLicence_foreign _) (steps_create h))

def bare : Session := after load (blank {} {} [])

theorem create_bare : create {} {} [] = .ok bare := rfl

end Typeflow.Session
