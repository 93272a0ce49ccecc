import Typeflow.Proofs.Step.Install
import Typeflow.Session.Lifecycle

/-! Loading a session and adding modules to it proceed by steps. -/
namespace Typeflow.Session.Stepwise

variable {L : Licence}

theorem enqueue (u : UnitId) (place : QueueEnd) : Stepwise L (Session.enqueue u place) :=
  of_step fun _ => .enqueue u place

theorem fulfil (request : Request) : Stepwise L (Session.fulfil request) := by
  cases request with
  | replace registration => exact register registration
  | returning module name type =>
    unfold Session.fulfil
    dsimp only
    split
    · exact throw _
    · exact register _

theorem loadStandard : Stepwise L Session.loadStandard :=
  read fun _ => bind (forM register _) fun _ => installEvery

theorem initializeHost : Stepwise L Session.initializeHost :=
  bind (of_bookkeeping fun _ => by constructor <;> rfl) fun _ =>
    read fun _ => forM fulfil _

theorem invalidate (r : RefId) : Stepwise L (Session.invalidate r) := updateRef r _

theorem newRef (ref : ModuleRef) : Stepwise L (Session.newRef ref) :=
  of_bookkeeping fun _ => by constructor <;> rfl

theorem resetModules : Stepwise L Session.resetModules := by
  refine read fun s => bind (forM (fun _ => invalidate _) _) fun _ =>
    bind (of_bookkeeping fun _ => by constructor <;> rfl) fun _ =>
      forM (fun name => read fun _ => ite ?_ (pure _)) _
  exact bind (newRef _) fun _ => of_bookkeeping fun _ => by constructor <;> rfl

theorem load : Stepwise L Session.load :=
  bind resetModules fun _ => bind loadStandard fun _ => initializeHost

theorem clearModule (m : ValueId) : Stepwise L (Session.clearModule m) :=
  of_step fun _ => .clearModule m

theorem reload : Stepwise L Session.reload :=
  bind resetModules fun _ =>
    bind (of_bookkeeping fun _ => by constructor <;> rfl) fun _ =>
      bind loadStandard fun _ => bind initializeHost fun _ => read fun _ =>
        bind (forM (fun _ => bind (clearModule _) fun _ => enqueueEntry _) _) fun _ =>
          bind (count _ _) fun _ => read fun _ => writeLog _ _

theorem setModule (name : String) (r : RefId) : Stepwise L (Session.setModule name r) := by
  have last : Stepwise L (modify fun s => { s with modules := s.modules.insert name r }) :=
    of_bookkeeping fun _ => by constructor <;> rfl
  refine read fun s => ?_
  split
  · exact ite (bind (invalidate _) fun _ => last) last
  · exact last

/-- Everything that is done for a module after it is made. -/
theorem registerModule (e : EntryId) (name path : String) :
    Stepwise L (do
      let module := ((← get).entry e).module
      if !path.isEmpty then
        modify fun s => { s with modulesByPath := s.modulesByPath.insert path module }
      if !name.isEmpty then
        Session.setModule name (← Session.newRef { module := some module, loaded := true })
        Session.installFor name
        (← takeWatchers name).forM fun u => Session.enqueue u .back
      Session.count "modules_added" 1
      Session.writeLog .modules ("added " ++ if name.isEmpty then path else name)
      return e) := by
  have close : Stepwise L (do
      Session.count "modules_added" 1
      Session.writeLog .modules ("added " ++ if name.isEmpty then path else name)
      return e) := bind (count _ _) fun _ => bind (writeLog _ _) fun _ => pure _
  have named : ∀ module : ValueId, Stepwise L (do
      if !name.isEmpty then
        Session.setModule name (← Session.newRef { module := some module, loaded := true })
        Session.installFor name
        (← takeWatchers name).forM fun u => Session.enqueue u .back
      Session.count "modules_added" 1
      Session.writeLog .modules ("added " ++ if name.isEmpty then path else name)
      return e) := by
    intro module
    refine ite ?_ close
    exact bind (newRef _) fun _ => bind (setModule _ _) fun _ => bind (installFor _) fun _ =>
      bind (of_bookkeeping fun _ => by constructor <;> rfl) fun _ =>
        bind (forM (fun u => enqueue u .back) _) fun _ => close
  refine read fun s => ite ?_ (named _)
  exact bind (of_bookkeeping fun _ => by constructor <;> rfl) fun _ => named _

end Typeflow.Session.Stepwise
