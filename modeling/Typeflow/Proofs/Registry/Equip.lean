import Typeflow.Proofs.Registry.History

/-! What the making of registrations consists of: tables of modules get entries, modules are queued, and
books are kept. -/
namespace Typeflow.Session

/-- What the making of registrations consists of is of this kind. -/
structure Equips (T : Session → Session → Prop) : Prop where
  furnish : ∀ {s t}, Furnish .all s t → T s t
  log : ∀ (s : Session) (registrations : NameMap (List Registration)), T s { s with registrations }
  tell : ∀ (s : Session) (n : Nat), T s { s with host := { s.host with initializations := n } }

namespace Equips

open Within

variable {T : Session → Session → Prop} {α : Type} {m : Analysis α} {Q : α → Prop}

theorem of_furnish (h : Equips T) (hm : Within .all (Furnish .all) m Q) : Within .all T m Q := fun s hs =>
  ⟨Relation.ReflTransGen.mono (fun _ _ => h.furnish) _ _ (hm s hs).1, (hm s hs).2⟩

theorem installAll (h : Equips T) (rs : List Registration) :
    Within .all T (Session.installAll rs) fun _ => True :=
  h.of_furnish (.forM fun _ _ => install_within (Realm.override_all _))

theorem installFor (h : Equips T) (name : String) : Within .all T (Session.installFor name) fun _ => True :=
  .read fun _ _ => h.installAll _

theorem installEvery (h : Equips T) : Within .all T Session.installEvery fun _ => True :=
  .read fun _ _ => h.installAll _

theorem register (h : Equips T) (r : Registration) : Within .all T (Session.register r) fun _ => True :=
  .bind (of_change fun _ _ => h.log _ _) fun _ _ => h.of_furnish (install_within (Realm.override_all _))

theorem loadStandard (h : Equips T) : Within .all T Session.loadStandard fun _ => True :=
  .read fun _ _ => .bind (.forM fun r _ => h.register r) fun _ _ => h.installEvery

theorem fulfil (h : Equips T) (request : Request) : Within .all T (Session.fulfil request) fun _ => True := by
  cases hr : request.registration? with
  | none =>
    intro s _
    obtain ⟨fault, fails⟩ := fulfil_of_none hr s
    rw [after_of_error fails]
    exact ⟨.refl, fun _ _ _ => trivial⟩
  | some r =>
    rw [fulfil_of_some hr]
    exact h.register r

theorem initializeHost (h : Equips T) : Within .all T Session.initializeHost fun _ => True :=
  .bind (of_change fun _ _ => h.tell _ _) fun _ _ => .read fun _ _ => .forM fun request _ => h.fulfil request

/-- All registrations are made once more. -/
theorem loaded (h : Equips T) :
    Within .all T (do Session.loadStandard; Session.initializeHost) fun _ => True :=
  .bind h.loadStandard fun _ _ => h.initializeHost

end Equips

/-- So is it when names go. -/
structure Refreshes (T : Session → Session → Prop) : Prop extends Equips T where
  clear : ∀ {s t}, Clearing .all s t → T s t

namespace Refreshes

open Within

variable {T : Session → Session → Prop} {α : Type} {m : Analysis α} {Q : α → Prop}

theorem of_clears (h : Refreshes T) (hm : Clears .all m Q) : Within .all T m Q := fun s hs =>
  ⟨Relation.ReflTransGen.mono (fun _ _ => h.clear) _ _ (hm s hs).1, (hm s hs).2⟩

theorem queueAll (h : Refreshes T) : Within .all T Session.queueAll fun _ => True :=
  .read fun _ _ => .bind (.forM fun _ _ => .bind (h.of_clears (.clearModule _)) fun _ _ =>
    h.of_clears (.enqueueEntry _)) fun _ _ => .bind (h.of_furnish (count_within _ _)) fun _ _ =>
      .read fun _ _ => h.of_furnish (writeLog_within _ _)

/-- What a reload does after the table of modules is filled and the memo tables are empty. -/
theorem reloaded (h : Refreshes T) :
    Within .all T (do Session.loadStandard; Session.initializeHost; Session.queueAll) fun _ => True :=
  .bind h.loadStandard fun _ _ => .bind h.initializeHost fun _ _ => h.queueAll

/-- Registrations do not bind names. -/
theorem cells : Refreshes fun s t => t.modules = s.modules ∧ t.refs = s.refs where
  furnish := Furnish.modules
  log _ _ := ⟨rfl, rfl⟩
  tell _ _ := ⟨rfl, rfl⟩
  clear := Clearing.modules

end Refreshes

/-- A reload fills the table of modules, empties the memo tables, and equips modules. -/
theorem after_reload_equips (s : Session) :
    after reload s = after (do loadStandard; initializeHost; queueAll)
      (after clearCaches (after resetModules s)) := by
  have total : Total clearCaches := .modify _
  rw [after_reload, loadAgain, after_seq total_resetModules, after_seq total, after_seq total_loadStandard]

end Typeflow.Session
