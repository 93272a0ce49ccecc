import Typeflow.Proofs.Life
import Typeflow.Proofs.Roam.Lifecycle

/-! Runs of the queue: besides the bodies that are run nothing happens that an evaluation could come
across. -/
namespace Typeflow.Session.Within

variable {R : Realm} {T : Session → Session → Prop}

section Aside

variable (beside : ∀ s t, Beside s t → T s t)

include beside

theorem of_beside {α : Type} {m : Analysis α} (h : ∀ s, Beside s (after m s)) :
    Within R T m fun _ => True := of_change fun s _ => beside _ _ (h s)

theorem report : Within R T Session.report fun _ => True := of_beside beside fun _ => .of_same rfl rfl rfl rfl rfl

theorem pop : Within R T Session.pop fun _ => True := by
  refine of_beside beside fun s => ?_
  cases hp : s.queue.pop? with
  | none =>
    rw [after_of_ok (pop_of_none hp)]
    exact .of_same rfl rfl rfl rfl rfl
  | some job =>
    rw [after_of_ok (pop_of_some hp)]
    exact .of_same rfl rfl rfl rfl rfl

variable [R.Guards T]

theorem reportAfter (c : Cancellation) (processed : Nat) :
    Within R T (Session.reportAfter c processed) fun _ => True := by
  refine read fun s _ => ?_
  split
  · exact pure trivial
  · exact ite (pure trivial) (bind (report beside) fun _ _ => read fun _ _ => pure trivial)

theorem stopRun : Within R T Session.stopRun fun _ => True :=
  bind (of_beside beside fun _ => .of_same rfl rfl rfl rfl rfl) fun _ _ =>
    bind (of_beside beside fun _ => .of_same rfl rfl rfl rfl rfl) fun _ _ =>
      of_beside beside fun _ => .of_same rfl rfl rfl rfl rfl

theorem closeTurn (c : Cancellation) (processed : Nat) :
    Within R T (Session.closeTurn c processed) fun _ => True :=
  bind (of_beside beside fun _ => .of_same rfl rfl rfl rfl rfl) fun _ _ => reportAfter beside c _

theorem closeRun (processed : Nat) : Within R T (Session.closeRun processed) fun _ => True :=
  read fun _ _ => ite (bind (report beside) fun _ _ => pure trivial) (pure trivial)

/-- A run stays within a realm if every body does. -/
theorem drain {run : UnitId → Analysis Unit} (body : ∀ u, Within R T (run u) fun _ => True)
    (c : Cancellation) (stopping : Bool) (processed fuel : Nat) :
    Within R T (Session.drain run c stopping processed fuel) fun _ => True := by
  induction fuel generalizing stopping processed with
  | zero => exact throw _
  | succ fuel ih =>
    refine ite (bind (stopRun beside) fun _ _ => pure trivial) (bind (pop beside) fun found _ => ?_)
    cases found with
    | none => exact pure trivial
    | some u =>
      refine read fun _ _ => ite (ih _ _) (read fun _ _ => ?_)
      exact bind (of_beside beside fun _ => .of_same rfl rfl rfl rfl rfl) fun _ _ => bind (body u) fun _ _ =>
        bind (of_beside beside fun _ => .of_same rfl rfl rfl rfl rfl) fun _ _ =>
          bind (reportAfter beside c _) fun _ _ => ih _ _

theorem analyzeQueued (body : ∀ u, Within R T (runBody u) fun _ => True) (c : Cancellation) :
    Within R T (Session.analyzeQueued c) fun _ => True :=
  bind (drain beside body c _ 0 drainLimit) fun _ _ => closeRun beside _

end Aside

end Typeflow.Session.Within
