import Typeflow.Proofs.History
import Typeflow.Proofs.Registry.Course
import Typeflow.Proofs.Roam.Run

/-! In every history the registry of a session takes a course of its moves. -/
namespace Typeflow

/-- What is registered for a request. A type to be returned has to be named with its module. -/
def Request.registration? : Request → Option Registration
  | .replace r => some r
  | .returning module name type =>
    (Text.lastDot type).map fun halves =>
      (Override.instanceOfMember halves.1 halves.2).beside module name

/-- What is registered for several requests; the first one that cannot be fulfilled ends it. -/
def fulfilled : List Request → List Registration
  | [] => []
  | request :: rest =>
    match request.registration? with
    | none => []
    | some r => r :: fulfilled rest

namespace Session

variable {s t : Session} {removals : Prop}

def Turning (s t : Session) : Prop := Tabled s → ∃ rs, RegistryTurn s rs t

/-- The action does to the registry what an evaluation may do to it. -/
abbrev Courses {α : Type} (m : Analysis α) (Q : α → Prop) : Prop := Within .all Turning m Q

namespace Courses

open Within

variable {α : Type} {m : Analysis α} {Q : α → Prop}

theorem course_of_turning (h : Relation.ReflTransGen Turning s t) (tabled : Tabled s) :
    Course removals s [] t := by
  induction h with
  | refl => exact .refl
  | tail _ turn ih =>
    obtain ⟨rs, turn⟩ := turn (ih.tabled tabled)
    exact ih.tail (.turn turn)

theorem course (h : Courses m Q) (tabled : Tabled s) : Course removals s [] (after m s) :=
  course_of_turning (h s (Realm.closed_all s)).1 tabled

theorem of_apart (h : Apart m Q) : Courses m Q := fun s hs =>
  ⟨.single fun _ => ⟨_, .aside (h.aside s)⟩, (h s hs).2⟩

theorem of_clears (h : Clears .all m Q) : Courses m Q := of_apart (.of_clears h)

theorem aside (h : ∀ s, Aside s (after m s)) : Courses m fun _ => True :=
  of_change fun s _ _ => ⟨_, .aside (h s)⟩

/-- What an evaluation does to the registry. -/
theorem turning_of_touch {L : Licence} {R : Realm} (touch : Touch L R s t) : Turning s t := by
  intro tabled
  cases touch with
  | steps h fine => exact ⟨_, .aside (Remote.of_changes fine).toAside⟩
  | lookup h =>
    have remote : Remote s t := h.through .refl .trans .of_change .of_reserves
    exact ⟨_, .aside remote.toAside⟩
  | wrap u body v w =>
    have wraps : Remote s (s.setValue v ((s.value v).keep .wrapper w)) := .setValue rfl rfl
    exact ⟨_, .aside wraps.toAside⟩
  | renew e => exact ⟨_, .aside (Apart.of_clears (.enqueueEntry e) |>.aside s)⟩
  | settle r idle => exact ⟨_, .settle r idle⟩
  | load r name object m cell idle made =>
    refine ⟨_, .load name r m cell idle fun v hv => tabled.objects object v ?_⟩
    rw [made, hv]

end Courses

theorem total_loadStandard : Total loadStandard :=
  .read fun _ => .bind (.forM total_register _) fun _ => .read fun _ => total_installAll _

def clearCaches : Analysis Unit :=
  modify fun s =>
    { s with
      objectValues := s.objectValues.clear
      constants := s.constants.clear
      aggregates := s.aggregates.clear
      boundMethods := s.boundMethods.clear }

private theorem aside_clearCaches (s : Session) : Aside s (after clearCaches s) :=
  ⟨rfl, Nat.le_refl _, fun _ _ => rfl, fun _ _ => rfl, fun _ _ h => nomatch h⟩

def queueAll : Analysis Unit := do
  let s ← get
  let entries := (List.range s.entries.size).map EntryId.mk
  (entries.filter fun e => !(s.entry e).removed).forM fun e => do
    clearModule (s.entry e).module
    enqueueEntry e
  count "reloads" 1
  writeLog .modules ("reloaded " ++ toString (← get).modules.size ++ " module names")

theorem after_reload (s : Session) :
    after reload s = after (do initializeHost; queueAll) (after (loadAgain clearCaches) s) := by
  have total : Total clearCaches := .modify _
  have first : after (loadAgain clearCaches) s =
      after loadStandard (after clearCaches (after resetModules s)) := by
    rw [loadAgain, after_seq total_resetModules, after_seq total]
  have whole : reload = resetModules >>= fun _ => clearCaches >>= fun _ => loadStandard >>= fun _ =>
      initializeHost >>= fun _ => queueAll := rfl
  rw [whole, after_seq total_resetModules, after_seq total, after_seq total_loadStandard, first]

private theorem after_load (s : Session) :
    after load s = after initializeHost (after (loadAgain (pure ())) s) := by
  have first : after (loadAgain (pure ())) s = after loadStandard (after resetModules s) := by
    rw [loadAgain, after_seq total_resetModules, after_seq (.pure ())]
    rfl
  rw [load, after_seq total_resetModules, after_seq total_loadStandard, first]

namespace Courses

open Within

theorem queueAll : Courses Session.queueAll fun _ => True :=
  .read fun _ _ => .bind (.forM fun _ _ => .bind (of_clears (.clearModule _)) fun _ _ =>
    of_clears (.enqueueEntry _)) fun _ _ => .bind (aside fun _ => .of_same rfl rfl rfl) fun _ _ => .read fun _ _ =>
      aside fun _ => .of_same rfl rfl rfl

end Courses

theorem fulfil_of_some {request : Request} {r : Registration} (h : request.registration? = some r) :
    fulfil request = register r := by
  cases request with
  | replace registration =>
    cases h
    rfl
  | returning module name type =>
    obtain ⟨halves, dot, rfl⟩ := Option.map_eq_some_iff.1 h
    simp only [fulfil, dot]

theorem fulfil_of_none {request : Request} (h : request.registration? = none) (s : Session) :
    ∃ fault, fulfil request s = .error fault s := by
  cases request with
  | replace registration => cases h
  | returning module name type =>
    have dot := Option.map_eq_none_iff.1 h
    simp only [fulfil, dot]
    exact ⟨_, rfl⟩

private theorem course_fulfil (request : Request) (s : Session) :
    Course removals s request.registration?.toList (after (fulfil request) s) := by
  cases h : request.registration? with
  | none =>
    obtain ⟨fault, run⟩ := fulfil_of_none h s
    rw [after_of_error run]
    exact .refl
  | some r =>
    rw [fulfil_of_some h]
    exact .single (.register r)

private theorem course_fulfilled (tabled : Tabled s) (requests : List Request) :
    Course removals s (fulfilled requests) (after (requests.forM fulfil) s) := by
  induction requests generalizing s with
  | nil => exact .refl
  | cons request rest ih =>
    change Course removals s _ (after (fulfil request >>= fun _ => rest.forM fulfil) s)
    cases h : request.registration? with
    | none =>
      obtain ⟨fault, run⟩ := fulfil_of_none h s
      rw [after_bind_of_error run, fulfilled, h]
      exact .refl
    | some r =>
      have first : RegistryMove removals s [r] [r] (after (register r) s) := .register r
      rw [fulfil_of_some h, after_seq (total_register r), fulfilled, h]
      exact (Course.single first).trans (ih (first.replayed tabled).tabled)

private theorem course_initializeHost (tabled : Tabled s) :
    Course removals s (fulfilled s.hostRequests) (after initializeHost s) := by
  let told : Session := { s with host := { s.host with initializations := s.host.initializations + 1 } }
  have aside : Aside s told := .of_same rfl rfl rfl
  have run : after initializeHost s = after (told.hostRequests.forM fulfil) told := rfl
  rw [run]
  exact (Course.single (.turn (.aside aside))).trans (course_fulfilled (aside.tabled tabled) _)

/-- Loading the host again makes the standard registrations anew and fulfils what the host asks for. -/
theorem course_reload (tabled : Tabled s) :
    Course removals s (standardRegistrations s.options ++ fulfilled s.hostRequests) (after reload s) := by
  let loaded := after (loadAgain clearCaches) s
  have again : RegistryMove removals s (standardRegistrations s.options) _ loaded :=
    .loadAgain clearCaches (.modify _) aside_clearCaches
  have replayed := again.replayed tabled
  have asked : Course removals loaded (fulfilled loaded.hostRequests) (after initializeHost loaded) :=
    course_initializeHost replayed.tabled
  rw [after_reload, ← replayed.hostRequests]
  refine (Course.single again).trans ?_
  cases h : initializeHost loaded with
  | ok a t =>
    rw [after_of_ok h] at asked
    rw [after_bind_of_ok h]
    simpa using asked.trans (Courses.queueAll.course (asked.tabled replayed.tabled))
  | error e t =>
    rw [after_of_error h] at asked
    rw [after_bind_of_error h]
    exact asked

def announce (text : String) : Analysis Unit := do
  count "modules_added" 1
  writeLog .modules ("added " ++ text)

theorem Apart.announce (text : String) : Apart (Session.announce text) fun _ => True :=
  Within.bind (Apart.of_remote fun _ => .of_same rfl rfl rfl rfl) fun _ _ => Apart.of_remote fun _ => .of_same rfl rfl rfl rfl

def wake (name : String) : Analysis Unit := do
  (← takeWatchers name).forM fun u => enqueue u .back
  announce name

theorem Apart.wake (name : String) : Apart (Session.wake name) fun _ => True :=
  Within.bind (Apart.takeWatchers name) fun _ _ =>
    Within.bind (Within.forM fun u _ => Apart.of_fine (.enqueue u .back)) fun _ _ => Apart.announce name

theorem total_installFor (name : String) : Total (installFor name) := .read fun _ => total_installAll _

def withListed (s : Session) (name path : String) : Session :=
  let made := s.withEntry name path
  if path.isEmpty then made
  else { made with modulesByPath := made.modulesByPath.insert path ⟨s.values.size⟩ }

theorem aside_withListed (s : Session) (name path : String) : Aside s (s.withListed name path) := by
  have made := aside_withEntry s name path
  unfold withListed
  split
  · exact made
  · exact made.trans (.of_same rfl rfl rfl)

theorem values_withListed (s : Session) (name path : String) :
    (s.withListed name path).values = (s.withEntry name path).values := by
  unfold withListed
  split <;> rfl

theorem size_withListed (s : Session) (name path : String) :
    (s.withListed name path).values.size = s.values.size + 1 := by
  rw [values_withListed, withEntry, Array.size_push]

/-- A module is made first; if it has a name, the name is bound to it and those who wait for it wake. -/
theorem after_addModule (name path : String) (s : Session) :
    after (addModule name path) s =
      if name.isEmpty then after (announce path) (s.withListed name path)
      else after (wake name) (after (bindModule name ⟨s.values.size⟩) (s.withListed name path)) := by
  let made := s.withEntry name path
  let m : ValueId := ⟨s.values.size⟩
  let e : EntryId := ⟨s.entries.size⟩
  let placed : Session := { made with modulesByPath := made.modulesByPath.insert path m }
  have module : (made.entry e).module = m := by simp [made, e, m, entry, withEntry]
  have run : newEntry name path s = .ok e made := rfl
  have unnamed : ∀ q, after (announce path >>= fun _ => (pure e : Analysis EntryId)) q =
      after (announce path) q := Roams.after_discard _ _
  have named : ∀ q, after (do
        setModule name (← newRef { module := some m, loaded := true })
        installFor name
        wake name
        return e) q = after (wake name) (after (bindModule name m) q) := by
    intro q
    let r : RefId := ⟨q.refs.size⟩
    have ref : newRef { module := some m, loaded := true } q =
        .ok r { q with refs := q.refs.push { module := some m, loaded := true } } := rfl
    rw [bindModule, after_bind_of_ok ref, after_bind_of_ok ref, after_seq (total_setModule name r),
      after_seq (total_setModule name r), after_seq (total_installFor name)]
    exact Roams.after_discard _ _ _
  rw [addModule, after_bind_of_ok run, after_read, module, withListed]
  cases path.isEmpty <;> cases name.isEmpty <;>
    simp only [Bool.not_true, Bool.not_false, Bool.false_eq_true, if_true, if_false]
  · refine (after_seq (.modify _) made).trans (Eq.trans (congrArg (after · placed) ?_) (named placed))
    simp only [wake, announce, bind_assoc]
  · exact (after_seq (.modify _) made).trans (unnamed placed)
  · refine Eq.trans (congrArg (after · made) ?_) (named made)
    simp only [wake, announce, bind_assoc]
  · exact unnamed made

private theorem course_addModule (s : Session) (name path : String) :
    Course removals s [] (after (addModule name path) s) := by
  let t := s.withListed name path
  have aside : Aside s t := aside_withListed s name path
  have first : Course removals s [] t := .single (.turn (.aside aside))
  have wide : s.values.size < t.values.size := by
    rw [size_withListed]
    exact Nat.lt_succ_self _
  rw [after_addModule]
  split
  · exact first.tail (.turn (.aside ((Apart.announce path).aside t)))
  · have bound : RegistryMove removals t [] _ (after (bindModule name ⟨s.values.size⟩) t) :=
      .bindModule name ⟨s.values.size⟩ wide
    exact (first.tail bound).tail (.turn (.aside ((Apart.wake name).aside _)))

namespace Operation

open Within

/-- The operation takes a module away. -/
def removes : Operation → Prop
  | removeModule _ => True
  | _ => False

/-- What an operation registers in a session with these options and requests of the host. -/
def registrations (options : Options) (requests : List Request) : Operation → List Registration
  | specialize request => request.registration?.toList
  | reload => standardRegistrations options ++ fulfilled requests
  | _ => []

/-- The operation only evaluates, reads or edits what is there: it changes the registry by what it loads
on its way. -/
def evaluates : Operation → Prop
  | addModule _ _ | removeModule _ | reload | specialize _ | installFor _ | installEvery => False
  | _ => True

/-- A path that leads to no resource any more says nothing about the others. -/
theorem shelves_erase (s : Session) (path : String) :
    Shelves s { s with resourcesByPath := s.resourcesByPath.erase path } where
  size := Nat.le_refl _
  named other r found := by
    rw [NameMap.find?_erase] at found
    split at found
    · cases found
    · exact .inl found

def edit? : Operation → Option (ResourceId × (Resource → Resource))
  | setResourceObjects r objects => some (r, fun resource => { resource with objects })
  | removeResource (some r) =>
    some (r, fun resource => { resource with removed := true, dependents := [] })
  | _ => none

/-- What evaluations and edits of programs consist of is of this kind. -/
structure Covers (T : Session → Session → Prop) : Prop extends Edits T where
  touch : ∀ {L s t}, Touch L .all s t → T s t

namespace Covers

variable {T : Session → Session → Prop} {α : Type} {m : Analysis α} {Q : α → Prop}

/-- Changes that have nothing to do with the registry need not be told apart. -/
theorem of_remote (remote : ∀ {s t}, Remote s t → T s t) (touch : ∀ {L s t}, Touch L .all s t → T s t) :
    Covers T where
  change c := remote (.of_change c)
  retire u s := remote (Apart.edits.retire u s)
  release s := remote (Apart.edits.release s)
  touch := touch

theorem roams {L : Licence} (h : Covers T) (hm : Roams L .all m Q) : Within .all T m Q := fun s hs =>
  ⟨Relation.ReflTransGen.mono (fun _ _ => h.touch) _ _ (hm s hs).1, (hm s hs).2⟩

theorem analyzeQueued (h : Covers T) (c : Cancellation) :
    Within .all T (Session.analyzeQueued c) fun _ => True := by
  refine .analyzeQueued (fun _ _ beside => h.change (.beside beside)) (fun u s hs => ⟨?_, ?_⟩) c
  · exact Relation.ReflTransGen.mono (fun _ _ => h.touch) _ _ (touches_runBody u hs)
  · exact fun _ _ _ => trivial

theorem inquire (h : Covers T) (v : ValueId) (q : Question) :
    Within .all T (Session.inquire v q) fun _ => True := by
  let L : Licence := ⟨fun _ => True, fun _ _ => False⟩
  refine .bind (h.fine .newObserver) fun u _ =>
    .bind (Q := fun _ => True) (h.fine (.of_beside fun _ => .of_same rfl rfl rfl rfl rfl)) fun node _ => ?_
  have asks : Roams.Answers L .all answer ⟨node, u⟩ := Roams.answer trivial
  exact (h.roams (asks v q trivial (Realm.question_all q))).any

/-- What an action yields may be ignored. -/
theorem ignoring (h : Within .all T m Q) : Within .all T (do let _ ← m) fun _ => True :=
  .bind h fun _ _ => .pure trivial

theorem removeResource (h : Covers T) (resource : Option ResourceId)
    (edits : ∀ r f s, (Operation.removeResource resource).edit? = some (r, f) →
      T s (after (updateResource r f) s)) :
    Within .all T (Session.removeResource resource) fun _ => True := by
  cases resource with
  | none => exact .throw _
  | some r =>
    have rest : Within .all T (do
        let resource := (← get).resource r
        if resource.removed then return
        updateResource r fun resource => { resource with removed := true, dependents := [] }
        enqueueDependents resource.dependents) fun _ => True :=
      .read fun _ _ => .ite (.pure trivial) (.bind (.of_change fun s _ => edits r _ s rfl) fun _ _ =>
        h.roams (L := noLicence) (.enqueueDependents _))
    refine .read fun _ _ => .read fun _ _ => .ite (.bind (Q := fun _ => True) ?_ fun _ _ => rest) rest
    exact h.fine (.of_beside fun t => .of_growth rfl rfl rfl ⟨.of_eq rfl, fun _ => .refl _, shelves_erase t _⟩)

/-- What an evaluation consists of, with what callers may do to a resource. -/
theorem run (h : Covers T) (o : Operation) (evaluates : o.evaluates)
    (edits : ∀ r f s, o.edit? = some (r, f) → T s (after (updateResource r f) s)) :
    Within .all T o.run fun _ => True := by
  have free : ∀ {α : Type} {m : Analysis α} {Q : α → Prop}, Roams noLicence .all m Q →
      Within .all T m Q := h.roams
  cases o with
  | addModule | removeModule | reload | specialize | installFor | installEvery => exact evaluates.elim
  | replaceTree e tree => exact h.replaceTree e tree
  | enqueueEntry e => exact free (.enqueueEntry e)
  | enqueueUnit u place => exact h.fine (.enqueue u place)
  | analyzeQueued c => exact ignoring (h.analyzeQueued c)
  | analyzeEntry e c => exact .bind (free (.enqueueEntry e)) fun _ _ => ignoring (h.analyzeQueued c)
  | setReporting interval => exact h.fine (.of_beside fun _ => .of_same rfl rfl rfl rfl rfl)
  | addResource path => exact ignoring (free (.addResource path))
  | removeResource r => exact h.removeResource r edits
  | setResourceObjects r objects =>
    exact .bind (Q := fun _ => True) (.of_change fun s _ => edits r _ s rfl) fun _ _ =>
      .read fun _ _ => free (.enqueueDependents _)
  | releaseRetired => exact h.releaseRetired
  | inquire v q => exact ignoring (h.inquire v q)
  | importName name bottom => exact ignoring (free (.importDotted name bottom))
  | listMembers names members => exact ignoring (free (.membersOffered names members))

/-- What happens in a turn that is given to a unit consists of this. -/
theorem turn (h : Covers T) {r : Session} {turn : Turn} (now : Move r [.ran turn] turn.after) :
    Relation.ReflTransGen T r turn.before ∧ Relation.ReflTransGen T turn.before turn.after := by
  obtain ⟨job, queue, -, -, rfl, -⟩ := now.of_ran
  have begun : T r (r.begun queue job.unit) := h.change (.beside (.of_same rfl rfl rfl rfl rfl))
  have body := touches_runBody job.unit (Realm.closed_all (r.begun queue job.unit))
  exact ⟨.single begun, Relation.ReflTransGen.mono (fun _ _ => h.touch) _ _ body⟩

/-- A run of the queue consists of this up to each turn, in it, and from there on. -/
theorem since_drained (h : Covers T) (c : Cancellation) (stopping : Bool) (processed fuel : Nat)
    (s : Session) {turn : Turn} (ran : .ran turn ∈ drainEvents c stopping processed fuel s) :
    Relation.ReflTransGen T s turn.before ∧ Relation.ReflTransGen T turn.before turn.after ∧
      Relation.ReflTransGen T turn.after (after (drain runBody c stopping processed fuel) s) := by
  have beside : ∀ s t, Beside s t → T s t := fun _ _ b => h.change (.beside b)
  have whole : ∀ {α : Type} {m : Analysis α} {Q : α → Prop}, Within .all T m Q →
      ∀ s, Relation.ReflTransGen T s (after m s) := fun hm s => (hm s (Realm.closed_all s)).1
  have turns : ∀ s job queue, s.queue.pop? = some (job, queue) → s.isAlive job.unit = true →
      Relation.ReflTransGen T s (after (runBody job.unit) (s.begun queue job.unit)) := by
    intro s job queue hp alive
    let taken := turnOf job.unit (s.begun queue job.unit)
    have now : Move s [.ran taken] taken.after := .turn job queue hp alive
    obtain ⟨begun, body⟩ := h.turn now
    exact begun.trans body
  have since := (drain_since (fun _ => .refl) (fun _ _ _ => .trans) c (whole (.stopRun beside))
    (fun _ _ _ _ _ => .single (beside _ _ (.of_same rfl rfl rfl rfl rfl))) turns
    (fun processed => whole (.closeTurn beside c processed)) stopping processed fuel s).2 turn ran
  obtain ⟨⟨r, up, now⟩, later⟩ := since
  obtain ⟨begun, body⟩ := h.turn now
  exact ⟨up.trans begun, body, later⟩

private theorem since_analyzeQueued (h : Covers T) {c : Cancellation} {turn : Turn}
    (ran : .ran turn ∈ drainEvents c c.startsRequested 0 drainLimit s) :
    Relation.ReflTransGen T s turn.before ∧ Relation.ReflTransGen T turn.before turn.after ∧
      Relation.ReflTransGen T turn.after (after (Session.analyzeQueued c) s) := by
  obtain ⟨first, body, later⟩ := h.since_drained c c.startsRequested 0 drainLimit s ran
  refine ⟨first, body, ?_⟩
  cases ended : drain runBody c c.startsRequested 0 drainLimit s with
  | error e t =>
    rw [Session.analyzeQueued, after_bind_of_error ended, ← after_of_error ended]
    exact later
  | ok processed t =>
    have closing : Within .all T (closeRun processed) fun _ => True :=
      .closeRun (fun _ _ b => h.change (.beside b)) processed
    rw [Session.analyzeQueued, after_bind_of_ok ended]
    rw [after_of_ok ended] at later
    exact later.trans (closing t (Realm.closed_all t)).1

/-- An operation consists of this up to each turn, in it, and from there on. -/
theorem since (h : Covers T) {o : Operation} {turn : Turn} (ran : .ran turn ∈ o.events s) :
    Relation.ReflTransGen T s turn.before ∧ Relation.ReflTransGen T turn.before turn.after ∧
      Relation.ReflTransGen T turn.after (after o.run s) := by
  cases o with
  | analyzeQueued c =>
    rw [show after (Operation.analyzeQueued c).run s = after (Session.analyzeQueued c) s from
      after_ignore _ s]
    exact h.since_analyzeQueued ran
  | analyzeEntry e c =>
    obtain ⟨first, body, later⟩ := h.since_analyzeQueued (s := after (Session.enqueueEntry e) s) ran
    have queued := (h.roams (L := noLicence) (.enqueueEntry e) s (Realm.closed_all s)).1
    rw [show after (Operation.analyzeEntry e c).run s = _ from after_analyzeEntry e c s]
    exact ⟨queued.trans first, body, later⟩
  | _ => exact absurd ran List.not_mem_nil

end Covers

/-- What an evaluation does to the registry. -/
theorem courses (o : Operation) (h : o.evaluates) : Courses o.run fun _ => True :=
  Covers.run (.of_remote (fun remote _ => ⟨_, .aside remote.toAside⟩) Courses.turning_of_touch) o h
    fun _ _ _ _ _ => ⟨_, .aside (.of_same rfl rfl rfl)⟩

/-- Every operation lets the registry take a course. -/
theorem course (o : Operation) (allowed : o.removes → removals) (tabled : Tabled s) :
    Course removals s (o.registrations s.options s.hostRequests) (after o.run s) := by
  have evaluation : o.evaluates → Course removals s [] (after o.run s) := fun h =>
    (o.courses h).course tabled
  cases o with
  | addModule name path =>
    have ends : after (run (.addModule name path)) s = after (Session.addModule name path) s :=
      after_ignore _ s
    rw [ends]
    exact course_addModule s name path
  | removeModule e =>
    cases e with
    | none => exact .refl
    | some e => exact .single (.removeModule (allowed trivial) e)
  | reload => exact course_reload tabled
  | specialize request => exact course_fulfil request s
  | installFor name => exact .single (.installFor name)
  | installEvery => exact .single .installEvery
  | _ => exact evaluation trivial

end Operation

/-- A history lets the registry take a course. -/
theorem course_afterAll (ops : List Operation) (allowed : ∀ o ∈ ops, o.removes → removals)
    (tabled : Tabled s) :
    Course removals s (ops.flatMap (·.registrations s.options s.hostRequests)) (afterAll ops s) := by
  induction ops generalizing s with
  | nil => exact .refl
  | cons o rest ih =>
    have first := o.course (allowed o List.mem_cons_self) tabled
    have more := ih (fun o ho => allowed o (List.mem_cons_of_mem _ ho)) (first.tabled tabled)
    rw [(first.options tabled).1, (first.options tabled).2] at more
    exact first.trans more

theorem tabled_blank (options : Options) (host : Host) (hostRequests : List Request) :
    Tabled (blank options host hostRequests) where
  cells := List.nodup_nil
  placed := nofun
  modules r m h := by
    simp [ref, blank] at h
    cases h
  objects := nofun
  filed := ⟨NameMap.ordered_empty, nofun, nofun⟩

/-- A session is made by loading an empty one. -/
theorem created_eq {options : Options} {host : Host} {hostRequests : List Request}
    (made : create options host hostRequests = .ok s) :
    s = after load (blank options host hostRequests) := by
  let start := blank options host hostRequests
  unfold create EStateM.run at made
  rw [show ({ options, host, hostRequests, log := { switches := options.log } } : Session) = start
    from rfl] at made
  cases hl : load start with
  | ok a t =>
    rw [hl] at made
    cases made
    rw [after_of_ok hl]
  | error e t =>
    rw [hl] at made
    cases made

/-- Making a session lets its registry take a course from nothing. -/
theorem course_create {options : Options} {host : Host} {hostRequests : List Request}
    (made : create options host hostRequests = .ok s) :
    Course removals (blank options host hostRequests)
      (standardRegistrations options ++ fulfilled hostRequests) s := by
  let start := blank options host hostRequests
  have again : RegistryMove removals start (standardRegistrations options) _
      (after (loadAgain (pure ())) start) := .loadAgain (pure ()) (.pure ()) fun q => .refl q
  have replayed := again.replayed (tabled_blank _ _ _)
  have asked : Course removals _ _ (after initializeHost (after (loadAgain (pure ())) start)) :=
    course_initializeHost replayed.tabled
  rw [replayed.hostRequests] at asked
  rw [created_eq made, after_load]
  exact (Course.single again).trans asked

/-- Where the host asks for no replacements a session is always made. -/
theorem create_unasked (options : Options) (host : Host) :
    create options host [] = .ok (after load (blank options host [])) := by
  let start := blank options host []
  let t := after loadStandard (after resetModules start)
  obtain ⟨_, resets⟩ := total_resetModules start
  obtain ⟨_, loads⟩ := total_loadStandard (after resetModules start)
  have again : RegistryMove True start (standardRegistrations options) _ (after (loadAgain (pure ())) start) :=
    .loadAgain (pure ()) (.pure ()) fun q => .refl q
  have none : t.hostRequests = [] := by
    have same : after (loadAgain (pure ())) start = t := by
      rw [loadAgain, after_seq total_resetModules, after_seq (.pure ())]
      rfl
    have kept := (again.replayed (tabled_blank _ _ _)).hostRequests
    rwa [same] at kept
  let told : Session := { t with host := { t.host with initializations := t.host.initializations + 1 } }
  have tells : initializeHost t = t.hostRequests.forM fulfil told := rfl
  rw [none] at tells
  have run : load start = .ok () told := (bind_of_ok resets).trans ((bind_of_ok loads).trans tells)
  have ends : load start = .ok () (after load start) := by rw [after_of_ok run, run]
  unfold create EStateM.run
  rw [show ({ options, host, hostRequests := [], log := { switches := options.log } } : Session) = start from rfl, ends]

end Session

end Typeflow
