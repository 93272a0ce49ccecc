import Typeflow.Proofs.Step
import Typeflow.Session.Modules

/-! Installing replacements proceeds by steps. -/
namespace Typeflow.Session.Stepwise

variable {L : Licence}

theorem count (name : String) (delta : Nat) : Stepwise L (Session.count name delta) :=
  of_bookkeeping fun _ => by constructor <;> rfl

theorem writeLog (category : LogCategory) (message : String) :
    Stepwise L (Session.writeLog category message) :=
  of_bookkeeping fun _ => by constructor <;> rfl

theorem enqueueEntry (e : EntryId) : Stepwise L (Session.enqueueEntry e) :=
  of_step fun _ => .enqueueEntry e

theorem specializeModule (m : ValueId) (qualified : String) (spec : Specialization) :
    Stepwise L (Session.specializeModule m qualified spec) := by
  refine readStep (fun s => .amendValue m _ rfl fun _ => .inl) fun s _ => ?_
  split
  · exact read fun _ => ite (enqueueEntry _) (pure _)
  · exact pure _

theorem install (r : Registration) : Stepwise L (Session.install r) := by
  refine read fun s => ?_
  split
  · exact writeLog _ _
  · exact bind (specializeModule _ _ _) fun _ => bind (count _ _) fun _ => read fun _ => writeLog _ _

theorem installAll (registrations : List Registration) :
    Stepwise L (Session.installAll registrations) := forM install registrations

theorem installFor (name : String) : Stepwise L (Session.installFor name) :=
  read fun _ => installAll _

theorem installEvery : Stepwise L Session.installEvery := read fun _ => installAll _

theorem register (r : Registration) : Stepwise L (Session.register r) :=
  bind (of_bookkeeping fun _ => by constructor <;> rfl) fun _ => install r

theorem updateRef (r : RefId) (f : ModuleRef → ModuleRef) : Stepwise L (Session.updateRef r f) :=
  of_bookkeeping fun _ => by constructor <;> rfl

end Typeflow.Session.Stepwise
