import Typeflow.Session.Units

/-! Names in scopes. A change to what a name holds queues every unit that has read it. -/
namespace Typeflow.Session

/-- Queues the units that read a name; dead readers are dropped first. -/
def notifyReaders (x : VarId) : Analysis Unit := do
  let s ← get
  let record := (s.var x).sweep s.isAlive
  setVariable x record
  record.readers.forM fun reader => enqueue reader .back

/-- Adds values to a name and tells whether they changed it. -/
def addTypes (x : VarId) (values : ValueSet) : Analysis Bool := do
  match ((← get).var x).grow? values with
  | none => return false
  | some record =>
    setVariable x record
    notifyReaders x
    return true

/-- Records that a unit depends on a name. -/
def addReader (x : VarId) (reader : UnitId) : Analysis Unit :=
  modify fun s =>
    { s with records := s.records.modify x.index (Variable.addReader s.isAlive reader) }

def addAssignment (x : VarId) (place : Location) : Analysis Unit :=
  modify fun s => { s with records := s.records.modify x.index (Variable.assign place) }

def addReference (x : VarId) (place : Location) : Analysis Unit :=
  modify fun s => { s with records := s.records.modify x.index (Variable.reference place) }

/-- The record of a name in a scope, if there is one. -/
def findName? (s : Session) (scope : ScopeId) (name : String) : Option VarId :=
  (s.scope scope).names.find? name

/-- The record of a name in a scope, made when there is none. -/
def nameIn (scope : ScopeId) (name : String) : Analysis VarId := do
  match (← get).findName? scope name with
  | some x => return x
  | none =>
    let x ← newVariable ((← get).scope scope).cap
    let c := (← get).scope scope
    setScope scope { c with names := c.names.insert name x }
    return x

/-- A scope and the scopes around it, inside out; `depth` bounds their number. -/
def scopesFrom (s : Session) (scope : ScopeId) : Nat → List ScopeId
  | 0 => []
  | depth + 1 =>
    match (s.scope scope).outer with
    | none => [scope]
    | some outer => scope :: s.scopesFrom outer depth

/-- A scope and the scopes around it, inside out. -/
def enclosing (s : Session) (scope : ScopeId) : List ScopeId := s.scopesFrom scope (s.scopes.size + 1)

/-- The outermost scope around a scope. -/
def moduleScope (s : Session) (scope : ScopeId) : ScopeId := (s.enclosing scope).getLast?.getD scope

/-- Sets the value kept for a node. -/
def keepNodeValue (node : NodeId) (value : ValueSet) : List (NodeId × ValueSet) → List (NodeId × ValueSet)
  | [] => [(node, value)]
  | (other, old) :: rest =>
    if node = other then (node, value) :: rest else (other, old) :: keepNodeValue node value rest

def setNodeValue (scope : ScopeId) (node : NodeId) (value : ValueSet) : Analysis Unit :=
  modify fun s =>
    let c := s.scope scope
    { s with
      scopes := s.scopes.setIfInBounds scope.index
        { c with nodeValues := keepNodeValue node value c.nodeValues } }

/-- The value of a node in a scope, made once, and what making it yields besides when it is made now.
While it is being made the node has the empty set. -/
def nodeValueAnd {α : Type} (scope : ScopeId) (node : NodeId) (make : Analysis (ValueSet × α)) :
    Analysis (ValueSet × Option α) := do
  match ((← get).scope scope).nodeValues.lookup node with
  | some value => return (value, none)
  | none =>
    setNodeValue scope node .empty
    let (value, more) ← make
    setNodeValue scope node value
    return (value, some more)

/-- The value of a node in a scope, made once. -/
def nodeValue (scope : ScopeId) (node : NodeId) (make : Analysis ValueSet) : Analysis ValueSet := do
  return (← nodeValueAnd scope node do return (← make, ())).1

/-- Forgets the names of a scope; the values of its nodes stay. -/
def clearNames (scope : ScopeId) : Analysis Unit := do
  setScope scope { (← get).scope scope with names := {} }

def clearNodeValues (scope : ScopeId) : Analysis Unit := do
  setScope scope { (← get).scope scope with nodeValues := [] }

/-- Where a node stands, as seen from a unit. -/
def placeOf (s : Session) (u : UnitId) (node : Node) : Location :=
  ⟨(s.unit u).entry, node.mark.line, node.mark.col⟩

/-- Assigns values to a name at a node. -/
def bindAt (x : VarId) (place : Location) (values : ValueSet) : Analysis Unit := do
  addAssignment x place
  let _ ← addTypes x values

end Typeflow.Session
