import Typeflow.Proofs.History
import Typeflow.Proofs.Registry.Log
import Typeflow.Proofs.Roam.Edit

/-! Scopes keep their names in order all their life, so what is found under a name is all that there is. -/
namespace Typeflow.Session

variable {s t r : Session}

def Alphabetical (s : Session) : Prop := ∀ c, (s.scope c).names.Ordered

def Sorts (s t : Session) : Prop := s.Alphabetical → t.Alphabetical

namespace Sorts

theorem refl (s : Session) : Sorts s s := id

theorem trans (h : Sorts s t) (g : Sorts t r) : Sorts s r := g ∘ h

theorem of_scopes (same : t.scopes = s.scopes) : Sorts s t := fun sorted c => by
  rw [scope, same]
  exact sorted c

theorem push {scope : Scope} (bare : scope.names = {}) : Sorts s { s with scopes := s.scopes.push scope } := by
  intro sorted c
  rw [scope_push]
  split
  · rw [bare]
    exact NameMap.ordered_empty
  · exact sorted c

theorem setScope {c : ScopeId} {scope : Scope} (names : s.Alphabetical → scope.names.Ordered) :
    Sorts s { s with scopes := s.scopes.setIfInBounds c.index scope } := by
  intro sorted d
  simp only [Session.scope, getD_setIfInBounds]
  split
  · exact names sorted
  · exact sorted d

theorem nameIn (c : ScopeId) (name : String) (s : Session) : Sorts s (after (nameIn c name) s) := by
  rcases after_nameIn c name s with ends | ⟨-, ends⟩ <;> rw [ends]
  · exact refl s
  · exact setScope fun sorted => (sorted c).insert name _

theorem setNodeValue (c : ScopeId) (n : NodeId) (values : ValueSet) (s : Session) :
    Sorts s (after (setNodeValue c n values) s) :=
  setScope fun sorted => sorted c

theorem clearModule (m : ValueId) (s : Session) : Sorts s (after (clearModule m) s) := by
  rcases after_clearModule m s with ends | ⟨p, t, -, told, ends⟩ <;> rw [ends]
  · exact refl s
  · have emptied : Sorts t (t.withoutNames p.scope) := setScope fun _ => NameMap.ordered_empty
    exact trans (of_scopes (by rw [told.frame])) emptied

theorem enqueue (u : UnitId) (place : QueueEnd) (s : Session) : Sorts s (after (enqueue u place) s) :=
  of_scopes (by rw [(queues_enqueue u place s).frame])

theorem enqueueBody (v : ValueId) (place : QueueEnd) (s : Session) : Sorts s (after (enqueueBody v place) s) := by
  rcases after_enqueueBody v place s with ⟨-, ends⟩ | ⟨code, body, -, -, ⟨w, -, ends⟩ | ⟨-, ends⟩⟩ <;> rw [ends]
  · exact refl s
  · exact enqueue w place s
  · have made : Sorts s (s.withUnitFor v code body) := of_scopes rfl
    exact made.trans (enqueue _ place _)

theorem enqueueEntry (e : EntryId) (s : Session) : Sorts s (after (enqueueEntry e) s) := by
  rcases after_enqueueEntry e s with ends | ⟨v, -, ends⟩ <;> rw [ends]
  · exact refl s
  · have versioned : Sorts s (s.withVersion e) := of_scopes rfl
    exact (versioned.trans (clearModule _ _)).trans (enqueue v .back _)

section Define

open Within

theorem tracks (entry : Option EntryId) (v : ValueId) :
    Within .all Sorts (trackDefinition entry v) fun _ => True := by
  cases entry with
  | none => exact .pure trivial
  | some e => exact .of_change fun _ _ => of_scopes rfl

theorem newFunction (u : UnitId) (body : Body) (name : String) (params : List (String × ParamKind)) :
    Within .all Sorts (newFunction u body name params) fun _ => True := by
  refine .read fun s _ => .bind (Q := fun _ => True) (.of_change fun _ _ => push rfl) fun c _ =>
    .bind (Q := fun _ => True) (.of_change fun _ _ => of_scopes rfl) fun _ _ =>
      .bind (.forM fun p _ => ?_) fun _ _ =>
        .bind (Q := fun _ => True) (.of_change fun _ _ => of_scopes rfl) fun v _ =>
          .bind (tracks _ v) fun _ _ => .pure trivial
  exact .bind (Q := fun _ => True) (.of_change fun s _ => nameIn c p.1 s) fun _ _ =>
    .of_change fun _ _ => of_scopes rfl

theorem newClass (u : UnitId) (body : Body) (name : String) :
    Within .all Sorts (newClass u body name) fun _ => True :=
  .read fun _ _ => .bind (Q := fun _ => True) (.of_change fun _ _ => push rfl) fun _ _ =>
    .bind (Q := fun _ => True) (.of_change fun _ _ => of_scopes rfl) fun _ _ =>
      .bind (Q := fun _ => True) (.of_change fun _ _ => of_scopes rfl) fun v _ =>
        .bind (tracks _ v) fun _ _ => .pure trivial

theorem definitionAt (u : UnitId) (node : Node) (kind : ValueKind) {make : Analysis ValueId}
    (makes : Within .all Sorts make fun _ => True) (s : Session) :
    Sorts s (after (definitionAt u node kind make) s) := by
  have keeps : ∀ c n values, Within .all Sorts (Session.setNodeValue c n values) fun _ => True :=
    fun c n values => .of_change fun s _ => setNodeValue c n values s
  have whole : Within .all Sorts (Session.definitionAt u node kind make) fun _ => True := by
    refine .read fun _ _ => .bind (Q := fun _ => True) (.read fun _ _ => ?_) fun _ _ => .read fun _ _ => .pure trivial
    split
    · exact .pure trivial
    · exact .bind (keeps _ _ _) fun _ _ =>
        .bind (Q := fun _ => True) (.bind makes fun _ _ => .pure trivial) fun _ _ =>
          .bind (keeps _ _ _) fun _ _ => .pure trivial
  exact whole.whole refl trans s

end Define

theorem of_step {L : Licence} (h : Step L s t) : Sorts s t := by
  cases h with
  | bookkeep h => exact of_scopes h.scopes
  | resolve cls on =>
    rcases after_setResolving cls on s with ends | ⟨c, -, ends⟩ <;> rw [ends]
    · exact refl s
    · exact of_scopes rfl
  | attributeOf v name =>
    rcases after_attributeOf v name s with ends | ⟨cls, attributes, -, -, ends⟩ <;> rw [ends]
    · exact refl s
    · exact of_scopes rfl
  | nameIn scope name => exact nameIn scope name s
  | addTypes x values =>
    rcases addTypes_cases x values s with ⟨-, kept⟩ | ⟨record, -, told⟩
    · rw [after_of_ok kept]
      exact refl s
    · rw [after_of_ok told]
      exact of_scopes (by rw [(notifies_notifyReaders x _).frame])
  | keepValue scope node values h => exact setNodeValue scope node values s
  | enqueue v place => exact enqueue v place s
  | clearModule m => exact clearModule m s
  | enqueueBody v place => exact enqueueBody v place s
  | enqueueEntry e => exact enqueueEntry e s
  | defineFunction w body name params h kind => exact definitionAt w _ _ (newFunction w body name params) s
  | defineClass w body name h kind => exact definitionAt w _ _ (newClass w body name) s
  | _ => exact of_scopes rfl

theorem of_steps {L : Licence} (h : Steps L s t) : Sorts s t :=
  h.induct (P := Sorts s) (fun _ _ next sorts => sorts.trans (of_step next)) (refl s)

theorem replaceTree (e : EntryId) (tree : Option Tree) (s : Session) : Sorts s (after (replaceTree e tree) s) := by
  obtain ⟨r, retires, ends⟩ := after_replaceTree e tree s
  have retired : Sorts s r := of_scopes (by rw [retires.frame]; rfl)
  have emptied : Sorts r (r.withoutNodeValues (r.moduleScopeOf e)) := setScope fun sorted => sorted _
  rw [ends]
  split
  · exact retired.trans emptied
  · exact (retired.trans emptied).trans (of_scopes rfl)

theorem removeModule (e : EntryId) (s : Session) : Sorts s (after (removeModule (some e)) s) := by
  rcases after_removeModule e s with ⟨-, ends⟩ | ⟨b, r, begins, retires, closes⟩
  · rw [ends]
    exact refl s
  · have retired : Sorts b r := of_scopes (by rw [retires.frame]; rfl)
    exact (((of_scopes begins.scopes).trans retired).trans (clearModule _ r)).trans (of_scopes closes.scopes)

theorem of_move {es : List Event} (h : Move s es t) : Sorts s t := by
  cases h with
  | change foreign steps => exact of_steps steps
  | addEntry name path => exact push rfl
  | observe => exact push rfl
  | replaceTree e tree inRange => exact replaceTree e tree s
  | removeModule e => exact removeModule e s
  | release =>
    obtain ⟨liveUnits, watchers, metrics, ends⟩ := after_releaseRetired s
    rw [ends]
    exact of_scopes rfl
  | turn job queue hp alive =>
    have begun : Sorts s (s.begun queue job.unit) := of_scopes rfl
    exact begun.trans (of_steps (steps_runBody job.unit _))
  | _ => exact of_scopes rfl

theorem of_moves {es : List Event} (h : Moves s es t) : Sorts s t :=
  h.induct (P := fun _ t => Sorts s t) (fun _ _ _ _ last sorts => sorts.trans (of_move last)) (refl s)

end Sorts

/-- In every history the names of all scopes stand in order. -/
theorem alphabetical_afterAll {options : Options} {host : Host} {hostRequests : List Request}
    (made : create options host hostRequests = .ok s) {ops : List Operation} (fits : Fitting ops s) :
    (afterAll ops s).Alphabetical := by
  have blank : (blank options host hostRequests).Alphabetical := fun _ => NameMap.ordered_empty
  have sane : Sane s := (sane_blank options host hostRequests).moves (moves_create made)
  exact Sorts.of_moves (moves_of_fitting ops sane fits) (Sorts.of_moves (moves_create made) blank)

end Typeflow.Session
