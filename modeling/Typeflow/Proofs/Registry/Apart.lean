import Typeflow.Proofs.Registry.Table
import Typeflow.Proofs.Roam.Edit

/-! Actions that have nothing to do with the table of modules, the replacements and the log. -/
namespace Typeflow.Session

/-- The action leaves alone the table of modules, the index of paths, the replacements and what is
registered. -/
abbrev Apart {α : Type} (m : Analysis α) (Q : α → Prop) : Prop := Within .all Remote m Q

namespace Apart

open Within

variable {α : Type} {m : Analysis α} {Q : α → Prop}

theorem remote (h : Apart m Q) (s : Session) : Remote s (after m s) := whole .refl .trans h s

theorem aside (h : Apart m Q) (s : Session) : Aside s (after m s) := (h.remote s).toAside

theorem of_remote (h : ∀ s, Remote s (after m s)) : Apart m fun _ => True :=
  of_change fun s _ => h s

theorem of_clears (h : Clears .all m Q) : Apart m Q := fun s hs =>
  ⟨.single (.of_clearings (h s hs).1), (h s hs).2⟩

theorem of_fine (h : Fine .all m Q) : Apart m Q := of_clears (.of_fine h)

theorem edits : Edits Remote where
  change := .of_change
  retire _ _ := .of_same rfl rfl rfl rfl
  release s := by
    obtain ⟨_, _, _, ends⟩ := after_releaseRetired s
    rw [ends]
    exact .of_same rfl rfl rfl rfl

theorem retireEntry (e : EntryId) (detaching : Bool) :
    Apart (Session.retireEntry e detaching) fun _ => True := edits.retireEntry e detaching

theorem takeWatchers (name : String) : Apart (Session.takeWatchers name) fun _ => True :=
  of_remote fun _ => .of_same rfl rfl rfl rfl

end Apart

/-- A module of the project begins without replacements. -/
theorem aside_withEntry (s : Session) (name path : String) : Aside s (s.withEntry name path) :=
  (Aside.push rfl).trans (.of_same rfl rfl rfl)

end Typeflow.Session
