import Typeflow.Proofs.Registry.Apart
import Typeflow.Proofs.Registry.Install
import Typeflow.Proofs.Replacement.Run

/-! When the calls of a function are replaced. -/
namespace Typeflow.Session

variable {s : Session} {u : UnitId} {e : EntryId} {name : String} {body : Body} {v : ValueId}

section History

variable {options : Options} {host : Host} {hostRequests : List Request} {ops : List Operation} {o : Operation}

/-- After a run of the queue that ends and drops no unit, each function is replaced that a turn came by while its module
had a replacement for it: its name is bound to a wrapper, and if the function had none before the turn, calls of the
wrapper invoke what the module has for the function now. So it is with every function that is defined when its
replacement is there, and with those that their units define again. -/
theorem replacement_is_called (made : create options host hostRequests = .ok s) (fits : Fitting (ops ++ [o]) s)
    (ends : succeeds o.run (afterAll ops s) = true) (kept : ∀ units, .dropped units ∉ o.events (afterAll ops s))
    {turn : Turn} (ran : .ran turn ∈ o.events (afterAll ops s))
    (entry : (turn.before.unit turn.unit).entry = some e)
    (defines : (name, body) ∈ (turn.before.unit turn.unit).body.functions)
    (replaced : turn.before.Replaces turn.unit e name) :
    ∃ v w spec, (afterAll (ops ++ [o]) s).IsReplaced turn.unit e name body v w spec ∧
      ((turn.before.value v).kept? .wrapper = none → (afterAll (ops ++ [o]) s).Invokes w v spec) := by
  obtain ⟨fitting, -⟩ := (fitting_append ops [o] s).1 fits
  obtain ⟨orderly, idle, leads⟩ := Operation.leads ((Orderly.create made).afterAll fitting) ends kept ran
  rw [show afterAll (ops ++ [o]) s = _ from afterAll_append ops [o] s]
  exact leads.isReplaced orderly idle entry defines replaced

/-- Whether a turn is that of a unit which defines a function of the name while its module replaces it and no function has
a wrapper. -/
def Event.replaces (e : EntryId) (name : String) : Event → Bool
  | .dropped _ => false
  | .ran turn =>
    let before := turn.before
    let unit := before.unit turn.unit
    decide (unit.entry = some e) && unit.body.functions.any (·.1 = name) &&
      (before.specialization? (before.entry e).module (before.qualifiedName turn.unit name)).isSome &&
      before.values.all fun value => (value.kept? .wrapper).isNone

/-- A module with a class that has a method, for which a replacement is there before the class is analysed. -/
def earlyMethod : List Operation :=
  let method : Stmt := .functionDef {} "f" [] [] []
  [.addModule "m" "/m.py", .specialize (.replace ⟨"m", "C.f", ⟨.recipe none .set (.constants [.int 7]), false⟩⟩),
    .replaceTree ⟨0⟩ (some { mark := {}, body := [.classDef {} "C" [] [method]] })]

/-- The method is replaced. -/
theorem replacement_is_called_in_class :
    ∃ u body v w spec, (analysedWith earlyMethod).IsReplaced u ⟨0⟩ "f" body v w spec ∧
      (analysedWith earlyMethod).Invokes w v spec := by
  obtain ⟨fits, ends, replacing⟩ : Fitting (earlyMethod ++ [.analyzeEntry ⟨0⟩ .never]) bare ∧
      succeeds (Operation.analyzeEntry ⟨0⟩ .never).run (afterAll earlyMethod bare) = true ∧
      ((Operation.analyzeEntry ⟨0⟩ .never).events (afterAll earlyMethod bare)).map (Event.replaces ⟨0⟩ "f") =
        [false, true] := by decide +kernel
  obtain ⟨event, mem, replaces⟩ := List.mem_map.1 (replacing ▸ List.mem_cons_of_mem _ List.mem_cons_self :
    true ∈ ((Operation.analyzeEntry ⟨0⟩ .never).events (afterAll earlyMethod bare)).map (Event.replaces ⟨0⟩ "f"))
  cases event with
  | dropped units => cases replaces
  | ran turn =>
    simp only [Event.replaces, Bool.and_eq_true, decide_eq_true_eq, List.any_eq_true] at replaces
    obtain ⟨⟨⟨entry, ⟨⟨_, body⟩, defines, rfl⟩⟩, found⟩, bare⟩ := replaces
    obtain ⟨v, w, spec, isReplaced, invokes⟩ := replacement_is_called create_bare fits ends
      (drainEvents_never 0 drainLimit _) mem entry defines (Option.isSome_iff_ne_none.1 found)
    refine ⟨turn.unit, body, v, w, spec, isReplaced, invokes ?_⟩
    rw [Session.value]
    cases there : turn.before.values[v.index]? with
    | none => rw [Array.getD_eq_getD_getElem?, there]; rfl
    | some value =>
      rw [Array.getD_eq_getD_getElem?, there]
      exact Option.isNone_iff_eq_none.1 (Array.all_eq_true_iff_forall_mem.1 bare _ (Array.mem_of_getElem? there))

/-- A unit that waits gets its turn in a run of the queue that ends and drops no unit. -/
theorem ran_of_waits {c : Cancellation} {n : Nat} (orderly : Orderly s)
    (drained : drain runBody c c.startsRequested 0 drainLimit s = .ok n t)
    (kept : ∀ units, .dropped units ∉ drainEvents c c.startsRequested 0 drainLimit s) (alive : s.isAlive u = true)
    (waits : s.queue.holds (s.job u) = true) :
    ∃ turn, .ran turn ∈ drainEvents c c.startsRequested 0 drainLimit s ∧ turn.unit = u := by
  obtain ⟨idle, complete⟩ := drain_ends drained kept
  have outfits := (outfits_drain c c.startsRequested 0 drainLimit s orderly ⟨complete, kept⟩).1
  have moves := moves_drain c c.startsRequested 0 drainLimit s
  rw [after_of_ok drained] at outfits moves
  rcases moves.waits orderly.sane waits alive (outfits.alive alive) with (ran | ⟨units, dropped, -⟩) | waits
  · exact ran
  · exact absurd dropped (kept units)
  · obtain ⟨job, mem, -⟩ := WorkQueue.holds_iff.1 waits
    rw [idle] at mem
    cases mem

/-- A function is replaced when its unit waits while its module has a replacement for it, also if it was defined
before. -/
theorem late_replacement_is_called (made : create options host hostRequests = .ok s) (fits : Fitting ops s)
    {c : Cancellation} (ends : succeeds (Operation.analyzeQueued c).run (afterAll ops s) = true)
    (kept : ∀ units, .dropped units ∉ (Operation.analyzeQueued c).events (afterAll ops s))
    (alive : (afterAll ops s).isAlive u = true) (waits : (afterAll ops s).queue.holds ((afterAll ops s).job u) = true)
    (entry : ((afterAll ops s).unit u).entry = some e)
    (defines : (name, body) ∈ ((afterAll ops s).unit u).body.functions) (replaced : (afterAll ops s).Replaces u e name) :
    ∃ turn, .ran turn ∈ (Operation.analyzeQueued c).events (afterAll ops s) ∧ turn.unit = u ∧
      ∃ v w spec, (afterAll (ops ++ [.analyzeQueued c]) s).IsReplaced u e name body v w spec ∧
        ((turn.before.value v).kept? .wrapper = none → (afterAll (ops ++ [.analyzeQueued c]) s).Invokes w v spec) := by
  have orderly := (Orderly.create made).afterAll fits
  obtain ⟨_, finish⟩ := succeeded ends
  obtain ⟨_, _, queued, -⟩ := bind_eq_ok finish
  obtain ⟨_, _, drained, -⟩ := drained_of_analyzeQueued queued
  obtain ⟨turn, ran, rfl⟩ := ran_of_waits orderly drained kept alive waits
  obtain ⟨last, idle, leads⟩ := Operation.leads orderly ends kept ran
  have same := leads.up.unit _ alive
  rw [show afterAll (ops ++ [.analyzeQueued c]) s = _ from afterAll_append ops [.analyzeQueued c] s]
  exact ⟨turn, ran, rfl, leads.isReplaced last idle (by rwa [same]) (by rwa [same])
    (leads.up.replaces _ _ _ alive entry replaced)⟩

/-- A replacement that is put into the table of a module that is there and has a tree makes the unit of the module wait,
and is the one that the module has. -/
theorem waits_specializeModule (orderly : Orderly s) {p : ProjectModule} (form : s.form v = .module p)
    (there : (s.entry p.entry).removed = false) (tree : (s.entry p.entry).tree.isSome = true)
    (heads : (s.entry p.entry).unit = some u) (alive : s.isAlive u = true) (qualified : String) (spec : Specialization) :
    let t := after (specializeModule v qualified spec) s
    t.queue.holds (t.job u) = true ∧ t.specialization? v qualified = some spec := by
  intro t
  have ends : t = after (enqueueEntry p.entry) (s.withReplacement v qualified spec) := by
    rcases after_specializeModule v qualified spec s with ⟨none, -⟩ | ⟨q, same, -, ends⟩
    · rw [none p form] at tree
      cases tree
    · cases form.symm.trans same
      exact ends
  have replaces : Step noLicence s (s.withReplacement v qualified spec) := .amendValue v _ rfl fun _ kept => .inl kept
  have sane := orderly.sane.step (fun _ _ no => False.elim no) replaces
  have waits : t.job u ∈ t.queue.jobs := by
    rw [ends]
    exact waits_enqueueEntry sane there heads alive (.inl rfl)
  have inRange : v.index < s.values.size := index_lt_of_form (by rw [form]; nofun)
  have aside : Aside (s.withReplacement v qualified spec) t := ends ▸ (Apart.of_clears (.enqueueEntry p.entry)).aside _
  refine ⟨WorkQueue.holds_iff.2 ⟨_, waits, rfl, rfl⟩, ?_⟩
  rw [aside.replacement, specialization?, value_withReplacement, if_pos ⟨rfl, inRange⟩]
  exact (NameMap.find?_insert _ _ _ _).trans (if_pos rfl)

end History

/-- A module with a class that has a method, analysed before the method is replaced. -/
def lateMethod : List Operation :=
  let method : Stmt := .functionDef {} "f" [] [] []
  [.addModule "m" "/m.py", .replaceTree ⟨0⟩ (some { mark := {}, body := [.classDef {} "C" [] [method]] }),
    .analyzeEntry ⟨0⟩ .never,
    .specialize (.replace ⟨"m", "C.f", ⟨.recipe none .set (.constants [.int 7]), false⟩⟩)]

/-- Asks for a member of a value and calls what it is. -/
def askAndCall (v : ValueId) (name : String) : Analysis Unit := do
  (← inquire v (.member name)).items.forM fun f => do let _ ← inquire f (.call [] [])

/-- Not every replacement is called: the method of a class that is defined before it is replaced stays what
it is, although the module is run again. -/
theorem late_method_keeps_function :
    let s := afterAll lateMethod bare
    let t := afterAll (lateMethod ++ [.analyzeQueued .never]) bare
    Fitting (lateMethod ++ [.analyzeQueued .never]) bare ∧ s.queue.jobs.length = 1 ∧
      succeeds (analyzeQueued .never) s = true ∧ t.queue.jobs = [] ∧
      (t.specialization? (t.entry ⟨0⟩).module "C.f").isSome = true ∧
      (t.value ⟨1⟩).name = "C" ∧ (t.form ⟨1⟩).kind = .userClass ∧
      succeeds (askAndCall ⟨1⟩ "f") t = true ∧ (after (askAndCall ⟨1⟩ "f") t).calls.length = 0 := by
  decide +kernel

end Typeflow.Session
