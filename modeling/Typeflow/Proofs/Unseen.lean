import Typeflow.Proofs.Identity
import Typeflow.Proofs.Unseen.Echo

/-! What a name without types and assignments changes for those who ask a session later: nothing. -/
namespace Typeflow.Session

/-- A question about the values, names and modules of a session. -/
inductive Query where
  /-- What a name refers to for a unit. -/
  | name (name : String) (site : Site)
  | member (v : ValueId) (name : String) (site : Site)
  | allMembers (v : ValueId)
  | presence (v : ValueId) (name : String)
  /-- What is offered below a path of names, all members or only those that are modules. -/
  | offers (path : List String) (members : Bool)
  /-- Where a name is defined. -/
  | exports (name : String)

inductive Reply where
  | values (values : ValueSet)
  | members (members : NameMap ValueSet)
  | presence (presence : Presence)
  | offers (offers : List Completion)
  | exports (exports : List Export)

def Query.ask : Query → Analysis Reply
  | .name id site => return .values (← lookupName id site)
  | .member v id site => return .values (← answer v (.member id) site)
  | .allMembers v => return .members (← Session.allMembers v)
  | .presence v id => return .presence ((← get).presence v id)
  | .offers path members => return .offers (← membersOffered path members)
  | .exports id => return .exports ((← get).exportsOf id)

/-- What comes of an action: what it yields, or why it fails. -/
def outcome {α : Type} (m : Analysis α) (s : Session) : Except Fault α :=
  match m s with
  | .ok a _ => .ok a
  | .error e _ => .error e

/-- The replies to questions that are asked one after the other, each of the session that the ones before it left. -/
def replies : List Query → Session → List (Except Fault Reply)
  | [], _ => []
  | q :: rest, s => outcome q.ask s :: replies rest (after q.ask s)

variable {s t : Session}

namespace Alike

variable (h : Alike s t)
include h

theorem presenceWithin (name : String) (depth : Nat) (m : ValueId) :
    t.presenceWithin name depth m = s.presenceWithin name depth m := by
  induction depth generalizing m with
  | zero => rfl
  | succ depth ih =>
    rcases h.value_cases m with ⟨same, -⟩ | ⟨_, _, _, hs, ht, -⟩
    · rw [Session.presenceWithin, Session.presenceWithin, same]
      dsimp only
      cases (s.value m).form <;> dsimp only
      case multiple members => rw [show t.presenceWithin name depth = s.presenceWithin name depth from funext ih]
      case builtinModule object => simp only [h.host, h.peek?]
      case module p =>
        have same := h.noted_of_filter ((h.scope p.scope).names.found name)
        rw [← Session.findName?, ← Session.findName?] at same
        simp only [h.peek?, h.ref]
        have bare : ∀ {r : Session} {x : VarId}, r.noted (some x) = (.empty, []) →
            (r.var x).types.isEmpty = true ∧ (r.var x).assignments.isEmpty = true := by
          intro r x none
          have types : (r.var x).types = .empty := congrArg Prod.fst none
          have places : (r.var x).assignments = [] := congrArg Prod.snd none
          rw [types, places]
          exact ⟨rfl, rfl⟩
        cases ht : t.findName? p.scope name with
        | none =>
          cases hs : s.findName? p.scope name with
          | none => rfl
          | some x =>
            rw [ht, hs] at same
            obtain ⟨types, places⟩ := bare same.symm
            simp [types, places]
        | some y =>
          cases hs : s.findName? p.scope name with
          | none =>
            rw [ht, hs] at same
            obtain ⟨types, places⟩ := bare same
            simp [types, places]
          | some x =>
            rw [ht, hs] at same
            have types : (t.var y).types = (s.var x).types := congrArg Prod.fst same
            have places : (t.var y).assignments = (s.var x).assignments := congrArg Prod.snd same
            simp only [Option.map_some, types, places]
    · simp only [Session.presenceWithin, hs, ht]

theorem validRefs : t.validRefs = s.validRefs := by simp only [Session.validRefs, h.modules, h.ref]

theorem childrenNamed (name : String) : t.childrenNamed name = s.childrenNamed name := by
  rw [Session.childrenNamed, Session.childrenNamed, h.validRefs]

theorem holdsModule (values : ValueSet) : t.holdsModule values = s.holdsModule values := by
  simp only [Session.holdsModule, h.isModule]

theorem memberTypeOf (values : ValueSet) : t.memberTypeOf values = s.memberTypeOf values := by
  simp only [Session.memberTypeOf, h.memberType]

theorem presence (m : ValueId) (name : String) : t.presence m name = s.presence m name := by
  rw [Session.presence, Session.presence, valueDepth, valueDepth, h.made, h.presenceWithin]

theorem exportsOf (name : String) : t.exportsOf name = s.exportsOf name := by
  simp only [Session.exportsOf, h.validRefs, h.ref, h.presence]

end Alike

namespace Blind

theorem lookupName (name : String) (site : Site) : Blind (Session.lookupName name site) := by
  refine look (fun s t alike => ?_) fun s => ?_
  · simp only [scopeAt, locationAt, placeOf, alike.unit, alike.visibleName?, alike.moduleScope]
  · dsimp only
    split
    · next x _ =>
      refine bind (addReader _ _) fun _ => bind ?_ fun _ => look (fun s t alike => by simp only [alike.types]) fun _ => pure _
      exact Echoes.unseen (.modify _) (.modify _) (Alike.addReference x _) (Alike.addReference x _)
    · refine named fun x y s t alike _ => Echoes.bind ?_ (fun _ => ?_) s t alike
      · exact Echoes.unseen (.modify _) (.modify _) (Alike.addReader x _) (Alike.addReader y _)
      · refine bind builtinsModule fun found => ?_
        cases found with
        | none => exact pure _
        | some m => exact member _ _ _ _

theorem descend (found : Found) (names : List String) : Blind (Session.descend found names) := by
  induction names generalizing found with
  | nil =>
    cases found with
    | none => exact pure _
    | some m => exact look (fun s t alike => by simp only [alike.isModule]) fun _ => ite (pure _) (pure _)
  | cons name rest ih =>
    cases found with
    | none => exact pure _
    | some m =>
      exact look (fun s t alike => by simp only [alike.isModule]) fun _ =>
        ite (pure _) (bind (childModule _ _) fun _ => ih _)

theorem moduleAt (first : String) (rest : List String) : Blind (Session.moduleAt first rest) := by
  refine bind (lookupModule first) fun found => ?_
  cases found with
  | none => exact pure _
  | some r => exact look (fun s t alike => by simp only [alike.ref]) fun _ => ite (descend _ _) (pure _)

theorem offersBelow (module : Found) (name : String) (members : Bool) :
    Blind (Session.offersBelow module name members) := by
  have named : ∀ s t : Session, Alike s t → ∀ known : NameMap Completion,
      ((t.childrenNamed name).foldl
        (fun known pair => known.insertNew pair.1 ⟨pair.1, .module, .single (t.ref pair.2).module⟩) known) =
      (s.childrenNamed name).foldl
        (fun known pair => known.insertNew pair.1 ⟨pair.1, .module, .single (s.ref pair.2).module⟩) known := by
    intro s t alike known
    simp only [alike.childrenNamed, alike.ref]
  cases module with
  | none => exact bind (pure _) fun _ => look (fun s t alike => by simp only [named s t alike]) fun _ => pure _
  | some m =>
    refine bind (childModules m) fun children => look (fun s t alike => by simp only [named s t alike]) fun _ =>
      bind (allMembers m) fun found => look (fun s t alike => ?_) fun _ => pure _
    simp only [alike.holdsModule, alike.memberTypeOf]

theorem membersOffered (path : List String) (members : Bool) : Blind (Session.membersOffered path members) := by
  cases path with
  | nil => exact pure _
  | cons first rest => exact bind (moduleAt _ _) fun _ => bind (offersBelow _ _ _) fun _ => pure _

theorem ask (q : Query) : Blind q.ask := by
  cases q with
  | name name site => exact bind (lookupName _ _) fun _ => pure _
  | member v name site => exact bind (member _ _ _ _) fun _ => pure _
  | allMembers v => exact bind (allMembers _) fun _ => pure _
  | presence v name => exact look (fun s t alike => by rw [alike.presence]) fun _ => pure _
  | offers path members => exact bind (membersOffered _ _) fun _ => pure _
  | exports name => exact look (fun s t alike => by rw [alike.exportsOf]) fun _ => pure _

end Blind

/-- Sessions that look alike give the same replies to all questions. -/
theorem replies_of_alike (h : Alike s t) (questions : List Query) : replies questions t = replies questions s := by
  induction questions generalizing s t with
  | nil => rfl
  | cons q rest ih =>
    rw [replies, replies]
    rcases (Blind.ask q s t h).cases with ⟨a, r, p, hs, ht, still⟩ | ⟨e, r, p, hs, ht, still⟩
    · rw [outcome, outcome, hs, ht, after_of_ok hs, after_of_ok ht, ih still]
    · rw [outcome, outcome, hs, ht, after_of_error hs, after_of_error ht, ih still]

/-- A name without types and places of assignment, whoever reads it, may be added to any scope, and such an attribute
to any instance: every sequence of later questions gets the replies that it would have got without, whether they yield
anything or fail. So it is where a read makes the name or the attribute that it does not find, and where it is noted
who reads a name. -/
theorem blank_names_are_unseen (s : Session) (questions : List Query) :
    (∀ t, AddsBlank s t → replies questions t = replies questions s) ∧
    (∀ c name, replies questions (after (nameIn c name) s) = replies questions s) ∧
    (∀ v name, replies questions (after (attributeOf v name) s) = replies questions s) ∧
    (∀ x u, replies questions (after (addReader x u) s) = replies questions s) :=
  ⟨fun _ adds => replies_of_alike (.of_addsBlank adds) questions,
    fun c name => replies_of_alike (.nameIn c name s) questions,
    fun v name => replies_of_alike (.attributeOf v name s) questions,
    fun x u => replies_of_alike (.addReader x u s) questions⟩

/-- A class inherits the name `x`, which its instance has from there. -/
def inheriting : List Operation :=
  [.addModule "m" "/m.py",
    .replaceTree ⟨0⟩ (some ⟨{}, [
      .classDef {} "C" [] [.assign {} [.name {} "x"] (.literal {} (.int 1))],
      .classDef {} "D" [.name {} "C"] [.pass {}],
      .assign {} [.name {} "d"] (.call {} (.name {} "D") [] [])]⟩),
    .analyzeEntry ⟨0⟩ .never]

/-- Under that name the class gets a record of its own that holds nothing, and the instance finds what it found. -/
theorem blank_does_not_shadow :
    let s := afterAll inheriting bare
    let t := s.withNamed ⟨2⟩ "x" { references := [⟨some ⟨0⟩, 7, 1⟩] }
    AddsBlank s t ∧ (t.findName? ⟨2⟩ "x").isSome = true ∧
      outcome (Query.member ⟨3⟩ "x" ⟨default, ⟨0⟩⟩).ask t = .ok (.values (.single (some ⟨4⟩))) := by
  intro s t
  obtain ⟨free, made, finds⟩ : s.findName? ⟨2⟩ "x" = none ∧ (t.findName? ⟨2⟩ "x").isSome = true ∧
      yield? (answer ⟨3⟩ (.member "x") ⟨default, ⟨0⟩⟩) s = some (.single (some ⟨4⟩)) := by
    decide +kernel
  have adds : AddsBlank s t := .scope ⟨rfl, rfl⟩ free
  have same := (blank_names_are_unseen s [.member ⟨3⟩ "x" ⟨default, ⟨0⟩⟩]).1 t adds
  obtain ⟨first, -⟩ := List.cons.inj same
  refine ⟨adds, made, first.trans ?_⟩
  rw [outcome, Query.ask, bind_of_ok (ok_of_yield? finds)]
  rfl

end Typeflow.Session
