import Typeflow.Session.Lifecycle

/-! What readers ask a session for: modules, their members, and where a name is defined. -/
namespace Typeflow.Session

/-- A name to offer to a reader. -/
structure Completion where
  name : String
  type : MemberType
  values : ValueSet

/-- The category that all values of a set have in common. -/
def memberTypeOf (s : Session) (values : ValueSet) : MemberType :=
  MemberType.common (values.items.map fun v => (s.value v).memberType)

/-- The category of a cell; one without a module counts as a module. -/
def refType (s : Session) (r : RefId) : MemberType :=
  match (s.ref r).module with
  | some m => (s.value m).memberType
  | none => .module

/-- The cells that are valid, by name. -/
def validRefs (s : Session) : List (String × RefId) :=
  s.modules.toList.filter fun pair => (s.ref pair.2).valid

/-- All modules, or those of one name part only. -/
def modulesOffered (s : Session) (topOnly : Bool) : List Completion :=
  (s.validRefs.filter fun pair => !pair.1.isEmpty && !(topOnly && Text.hasDot pair.1)).map fun pair =>
    ⟨pair.1, s.refType pair.2, .single (s.ref pair.2).module⟩

/-- The children of a module, followed down by name. Anything else than a module ends the way. -/
def descend : Found → List String → Analysis Found
  | none, _ => return none
  | some m, names => do
    if !((← get).value m).isModule then return none
    match names with
    | [] => return some m
    | name :: rest => descend (← childModule m name) rest

/-- The module that a path of names leads to. -/
def moduleAt (first : String) (rest : List String) : Analysis Found := do
  match ← lookupModule first with
  | none => return none
  | some r =>
    let ref := (← get).ref r
    if ref.valid then descend ref.module rest else return none

/-- The modules of the table that stand directly below a name, even if that name has no module. -/
def childrenNamed (s : Session) (name : String) : List (String × RefId) :=
  s.validRefs.filterMap fun pair => (Text.childName? name pair.1).map (·, pair.2)

/-- Whether a set has a module among its values. -/
def holdsModule (s : Session) (values : ValueSet) : Bool :=
  values.items.any fun v => (s.value v).isModule

/-- What is offered below a module that is found or not: its children, the modules named below it, and
its members, or only those that are modules. Members come before children of their name. -/
def offersBelow (module : Found) (name : String) (members : Bool) :
    Analysis (NameMap Completion) := do
  let children ←
    match module with
    | none => pure {}
    | some m => childModules m
  let known : NameMap Completion :=
    ⟨children.toList.map fun pair => (pair.1, ⟨pair.1, .module, .single pair.2⟩)⟩
  let s ← get
  let known := (s.childrenNamed name).foldl
    (fun known pair => known.insertNew pair.1 ⟨pair.1, .module, .single (s.ref pair.2).module⟩) known
  match module with
  | none => return known
  | some m =>
    let found ← allMembers m
    let s ← get
    let kept := found.toList.filter fun pair => members || s.holdsModule pair.2
    return kept.foldl
      (fun known pair => known.insert pair.1 ⟨pair.1, s.memberTypeOf pair.2, pair.2⟩) known

/-- What is offered below a path of names. -/
def membersOffered (names : List String) (members : Bool) : Analysis (List Completion) := do
  match names with
  | [] => return []
  | first :: rest =>
    let module ← moduleAt first rest
    return (← offersBelow module (Text.joinDots names) members).values

/-- What is offered below a dotted name; empty parts are dropped. -/
def moduleOffered (name : String) : Analysis (List Completion) := membersOffered (Text.items '.' name) true

/-- A place where a name is defined. -/
structure Export where
  name : String
  /-- Whether it is certain that the name is defined there. -/
  certain : Bool
  deriving DecidableEq, Repr

/-- Whether a module is called by the name, in a package or not. -/
def isCalled (name module : String) : Bool :=
  module = name || (Text.lastDot module).any fun halves => halves.2 = name

/-- Every module of a name, followed by every module that has a member of it. -/
def exportsOf (s : Session) (name : String) : List Export :=
  let modules := (s.validRefs.filter fun pair => isCalled name pair.1).map fun pair => ⟨pair.1, true⟩
  let members := s.validRefs.filterMap fun pair => do
    let m ← (s.ref pair.2).module
    match s.presence m name with
    | .absent => none
    | presence => some ⟨pair.1 ++ "." ++ name, presence = .resolved⟩
  modules ++ members

end Typeflow.Session
