import Typeflow.Proofs.Roam.Walk
import Typeflow.Session.Queries

/-! Queueing, the resources of a project and the questions of readers, from anywhere in a session. -/
namespace Typeflow.Session.Roams

open Within

variable {L : Licence} {R : Realm}

theorem enqueueDependents (dependents : List EntryId) :
    Roams L R (Session.enqueueDependents dependents) fun _ => True := .forM fun _ _ => enqueueEntry _

/-- A new resource declares nothing. -/
theorem resource_push (s : Session) (path : String) (r : ResourceId) :
    (s.resource r).Grows ((s.resources.push { path }).getD r.index default) := by
  rw [getD_push]
  split
  · next new =>
    rw [resource, Array.getD_eq_getD_getElem?, Array.getElem?_eq_none (Nat.le_of_eq new.symm)]
    exact ⟨rfl, List.nil_subset _⟩
  · exact .refl _

/-- The path of a new resource leads to it. -/
theorem shelves_push (s : Session) (path : String) :
    Shelves s { s with
      resources := s.resources.push { path }
      resourcesByPath := s.resourcesByPath.insert path ⟨s.resources.size⟩ } where
  size := by simp
  named other r found := by
    rw [NameMap.find?_insert] at found
    split at found
    · cases found
      exact .inr (by simp)
    · exact .inl found

theorem addResource (path : String) : Roams L R (Session.addResource path) fun _ => True := by
  refine .read fun s _ => ?_
  split
  · exact .pure trivial
  · exact of_beside (fun _ => by constructor <;> rfl) fun t =>
      .of_growth rfl rfl rfl ⟨.of_eq rfl, resource_push t path, shelves_push t path⟩

theorem descend {m : Found} (hm : R.found m) (names : List String) :
    Roams L R (Session.descend m names) R.found := by
  induction names generalizing m with
  | nil =>
    cases m with
    | none => exact .pure Realm.found_none
    | some m => exact .read fun _ _ => .ite (.pure Realm.found_none) (.pure hm)
  | cons name rest ih =>
    cases m with
    | none => exact .pure Realm.found_none
    | some m =>
      exact .read fun _ _ => .ite (.pure Realm.found_none)
        (.bind (childModule (hm m rfl) name) fun _ hc => ih hc)

theorem moduleAt (first : String) (rest : List String) :
    Roams L R (Session.moduleAt first rest) R.found := by
  intro s hs
  obtain ⟨touches, _⟩ := lookupModule (L := L) first s hs
  cases h : Session.lookupModule first s with
  | error e t =>
    rw [after_of_error h] at touches
    rw [Session.moduleAt, after_bind_of_error h, bind_of_error h]
    exact ⟨touches, fun _ _ ha => nomatch ha⟩
  | ok found t =>
    rw [after_of_ok h] at touches
    rw [Session.moduleAt, after_bind_of_ok h, bind_of_ok h]
    have ht := Realm.Guards.closed_all hs touches
    cases found with
    | none => exact ⟨touches, fun a r ha => by cases ha; exact Realm.found_none⟩
    | some r =>
      have cell : t.peek? first = some r := by
        rw [peek?, modules_of_touches touches]
        exact (lookupModule_eq_ok h).symm
      have below : Roams L R (do
          let ref := t.ref r
          if ref.valid then Session.descend ref.module rest else return none) R.found :=
        .ite (descend (fun m hm => ht.modules first r m cell hm) rest) (.pure Realm.found_none)
      exact ⟨touches.trans (below t ht).1, (below t ht).2⟩

theorem offersBelow {module : Found} (hm : R.found module) (name : String) (members : Bool) :
    Roams L R (Session.offersBelow module name members) fun _ => True := by
  cases module with
  | none => exact .bind (Q := fun _ => True) (.pure trivial) fun _ _ => .read fun _ _ => .pure trivial
  | some m =>
    exact .bind (childModules m) fun _ _ => .read fun _ _ =>
      .bind (allMembers (hm m rfl)) fun _ _ => .read fun _ _ => .pure trivial

theorem membersOffered (names : List String) (members : Bool) :
    Roams L R (Session.membersOffered names members) fun _ => True := by
  cases names with
  | nil => exact .pure trivial
  | cons first rest =>
    exact .bind (moduleAt _ _) fun _ hm => .bind (offersBelow hm _ _) fun _ _ => .pure trivial

end Typeflow.Session.Roams
