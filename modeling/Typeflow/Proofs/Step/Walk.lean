import Typeflow.Proofs.Roam.Lifecycle
import Typeflow.Proofs.Step.Install

/-! Running a body proceeds by steps that its own code allows, and so does all that an evaluation does
on its way. -/
namespace Typeflow.Session

/-- Loading a module is nothing but steps. -/
theorem steps_of_touch {L : Licence} {R : Realm} {s t : Session} (touch : Touch L R s t) :
    Steps L s t := by
  cases touch with
  | steps steps fine => exact steps
  | lookup h => exact h.steps
  | wrap u body v w => exact .single (.amendValue v _ rfl fun _ kept => .inl (kept?_keep_ne (by rintro ⟨⟩) kept))
  | renew e => exact .single (.enqueueEntry e)
  | settle r idle => exact Stepwise.updateRef r _ s
  | load r name object m cell idle made =>
    have loads : Stepwise L (loadCell r name m) :=
      .bind (.updateRef r _) fun _ => .bind (.writeLog _ _) fun _ => .installFor name
    exact loads s

theorem steps_of_touches {L : Licence} {R : Realm} {s t : Session} (touches : Touches L R s t) :
    Steps L s t := by
  induction touches with
  | refl => exact .refl
  | tail _ touch ih => exact ih.trans (steps_of_touch touch)

namespace Stepwise

variable {L : Licence} {u : UnitId}

theorem of_roams {α : Type} {m : Analysis α} {Q : α → Prop} (h : Roams L .all m Q) : Stepwise L m :=
  fun s => steps_of_touches (h s (Realm.closed_all s)).1

theorem builtinsModule : Stepwise L Session.builtinsModule := of_roams .builtinsModule

theorem importDotted (name : String) (bottom : Bool) : Stepwise L (Session.importDotted name bottom) :=
  of_roams (.importDotted name bottom)

theorem answer {site : Site} (hs : L.keep site.node.id) (v : ValueId) (q : Question) :
    Stepwise L (Session.answer v q site) :=
  of_roams (Roams.answer hs v q trivial (Realm.question_all q))

theorem enqueueBody (v : ValueId) (place : QueueEnd) : Stepwise L (Session.enqueueBody v place) :=
  of_step fun _ => .enqueueBody v place

theorem evaluate (e : Expr) (h : ∀ n ∈ e.places, L.keep n) : Stepwise L (Session.evaluate u e) :=
  of_roams (.evaluate e h)

theorem evaluateAll (es : List Expr) (h : ∀ n ∈ Expr.placesAll es, L.keep n) :
    Stepwise L (Session.evaluateAll u es) := of_roams (.evaluateAll es h)

theorem bindName (node : Node) (name : String) (values : ValueSet) :
    Stepwise L (Session.bindName u node name values) :=
  of_roams (.bindName node name (Realm.set_all values))

theorem assignTo (statement : Node) (values : ValueSet) (e : Expr) (h : ∀ n ∈ e.places, L.keep n) :
    Stepwise L (Session.assignTo u statement values e) :=
  of_roams (.assignTo statement (Realm.set_all values) e h)

theorem assignEach (statement : Node) (values : ValueSet) (targets : List Expr)
    (h : ∀ n ∈ Expr.placesAll targets, L.keep n) :
    Stepwise L (Session.assignEach u statement values targets) :=
  of_roams (.assignEach statement (Realm.set_all values) targets h)

theorem functionWrapper (v module : ValueId) (qualified : String) :
    Stepwise L (Session.functionWrapper v module qualified) := by
  refine bind (read fun s => ?_) fun _ => pure _
  split
  · exact pure _
  · refine bind (of_roams (Roams.newWrapper (Realm.found_some trivial) _ ?_)) fun _ =>
      bind (of_step fun _ => .amendValue _ _ rfl fun _ kept => .inl (kept?_keep_ne (by rintro ⟨⟩) kept)) fun _ => pure _
    exact trivial

theorem functionBinding (v : ValueId) (name : String) :
    Stepwise L (Session.functionBinding u v name) := by
  refine read fun s => ?_
  dsimp only
  split
  · exact pure _
  · split
    · exact pure _
    · exact bind (functionWrapper _ _ _) fun _ => pure _

theorem defaults (v : ValueId) (params : List Param) (h : ∀ n ∈ Param.placesAll params, L.keep n) :
    Stepwise L (params.forM (Session.addDefault u v)) := of_roams (.defaults v params h)

theorem bases (v : ValueId) (es : List Expr) (h : ∀ n ∈ Expr.placesAll es, L.keep n) :
    Stepwise L (es.forM (Session.addBase u v)) := of_roams (.bases v es h)

theorem walkReturn (value : Expr) (h : ∀ n ∈ value.places, L.keep n) :
    Stepwise L (Session.walkReturn u value) := of_roams (.walkReturn value h)

theorem importAlias (node : Node) (name : Alias) : Stepwise L (Session.importAlias u node name) :=
  of_roams (.importAlias node name)

theorem walkImportFrom (node : Node) (hn : L.keep node.id) (module : String) (level : Int)
    (names : List Alias) : Stepwise L (Session.walkImportFrom u node module level names) :=
  of_roams (.walkImportFrom node hn module level names)

theorem walkAll (stmts : List Stmt) (hp : ∀ n ∈ Stmt.placesAll stmts, L.keep n)
    (hd : ∀ b ∈ Stmt.definitionsAll stmts, L.define u b) : Stepwise L (Session.walkAll u stmts) :=
  of_roams (.walkAll stmts hp hd)

theorem addResource (path : String) : Stepwise L (Session.addResource path) :=
  of_roams (.addResource path)

/-- Only the modules that depend on a resource take notice of what is noted about it. -/
theorem updateResource (r : ResourceId) (f : Resource → Resource) :
    Stepwise L (Session.updateResource r f) := of_bookkeeping fun _ => by constructor <;> rfl

theorem removeResource (r : Option ResourceId) : Stepwise L (Session.removeResource r) := by
  cases r with
  | none => exact throw _
  | some r =>
    have rest : Stepwise L (do
        let resource := (← get).resource r
        if resource.removed then return
        Session.updateResource r fun resource => { resource with removed := true, dependents := [] }
        Session.enqueueDependents resource.dependents) :=
      read fun _ => ite (pure _) (bind (updateResource r _) fun _ => of_roams (.enqueueDependents _))
    refine read fun s => read fun t => ite (bind ?_ fun _ => rest) rest
    exact of_bookkeeping fun _ => by constructor <;> rfl

theorem setResourceObjects (r : ResourceId) (objects : NameMap (Option ObjectId)) :
    Stepwise L (Session.setResourceObjects r objects) :=
  bind (updateResource r _) fun _ => read fun _ => of_roams (.enqueueDependents _)

theorem membersOffered (names : List String) (members : Bool) :
    Stepwise L (Session.membersOffered names members) := of_roams (.membersOffered names members)

end Stepwise

/-- A run of a unit proceeds by steps that its body allows. -/
theorem steps_runBody (u : UnitId) (s : Session) :
    Steps (licence u (s.unit u).body) s (after (runBody u) s) :=
  steps_of_touches (touches_runBody u (Realm.closed_all s))

end Typeflow.Session
