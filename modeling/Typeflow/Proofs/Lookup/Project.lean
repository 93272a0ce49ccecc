import Typeflow.Proofs.Lookup.Frame

/-! What a module of the project yields for a name: the types of the name if it is bound, and otherwise a module
that stands below it. -/
namespace Typeflow.Session

variable {s : Session} {x : VarId} {v : ValueId} {name : String}

def boundIn? (s : Session) (m : ValueId) (name : String) : Option VarId :=
  match s.form m with
  | .module p => (s.findName? p.scope name).filter fun x => (s.var x).isBound
  | _ => none

private theorem isBound_addReader (x y : VarId) (u : UnitId) (s : Session) :
    ((after (addReader x u) s).var y).isBound = (s.var y).isBound := by
  rw [show (after (addReader x u) s).var y = _ from Fills.var_modify s x y _]
  split
  · rw [Variable.isBound, Variable.isBound, Variable.assignments_addReader, Variable.types_addReader]
  · rfl

/-- A module yields what a name of it has if the name is bound. -/
theorem projectMember_run (ask : Ask) (site : Site) (h : s.boundIn? v name = some x) :
    ∃ t, memberOf ask v name site s = .ok (s.types x) t := by
  cases hv : s.form v with
  | module p =>
    simp only [boundIn?, hv, Option.filter_eq_some_iff] at h
    let read := after (addReader x site.unit) s
    have asks : addReader x site.unit s = .ok () read := rfl
    have record : (read.var x).types = s.types x := (Peeks.addReader x site.unit s).types x
    refine ⟨read, ?_⟩
    rw [memberOf, read_run, hv]
    dsimp only
    rw [projectMember, bind_of_ok (nameIn_of_some h.1), bind_of_ok asks, read_run,
      if_pos ((isBound_addReader x x site.unit s).trans h.2), record]
    rfl
  | _ => simp [boundIn?, hv] at h

/-- Otherwise the name is noted, and the module below is what there is. -/
theorem projectMember_below (ask : Ask) (site : Site) {p : ProjectModule} (hv : s.form v = .module p)
    (h : s.boundIn? v name = none) :
    ∃ t, t = { s with records := t.records, scopes := t.scopes } ∧
      memberOf ask v name site s = (do return .single (← childModule v name) : Analysis ValueSet) t := by
  obtain ⟨x, named, names, frame, free⟩ : ∃ x named, nameIn p.scope name s = .ok x named ∧
      named = { s with records := named.records, scopes := named.scopes } ∧ (named.var x).isBound = false := by
    cases hx : s.findName? p.scope name with
    | some x =>
      refine ⟨x, s, nameIn_of_some hx, rfl, ?_⟩
      simpa [boundIn?, hv, hx] using h
    | none =>
      refine ⟨_, _, nameIn_of_none hx, rfl, ?_⟩
      have fresh : (s.withName p.scope name).var ⟨s.records.size⟩ = { cap := (s.scope p.scope).cap } :=
        (Fills.var_push s _ _).trans (if_pos rfl)
      rw [fresh]
      rfl
  let read := after (addReader x site.unit) named
  have asks : addReader x site.unit named = .ok () read := rfl
  refine ⟨read, ?_, ?_⟩
  · rw [show read = { named with records := read.records } from rfl, frame]
  · rw [memberOf, read_run, hv]
    dsimp only
    rw [projectMember, bind_of_ok names, bind_of_ok asks, read_run, isBound_addReader, free,
      if_neg Bool.false_ne_true]

end Typeflow.Session
