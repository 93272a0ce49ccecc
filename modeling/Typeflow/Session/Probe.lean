import Typeflow.Session.Queries

/-! Expressions that name sets of values of a session, and the values that others lead to. -/
namespace Typeflow.Session

/-- A node that stands nowhere in a tree. -/
def freshNode (kind : NodeKind) : Analysis Node :=
  modifyGet fun s => (⟨kind, { id := ⟨s.nextNode⟩ }⟩, { s with nextNode := s.nextNode + 1 })

/-- A unit without statements in a scope of its own, to ask questions from. -/
def newObserver : Analysis UnitId := do
  newUnit none (← newScope {}) ⟨← freshNode .module, []⟩

inductive Probe where
  | empty
  | top
  | object (object : Option ObjectId)
  | constant (value : Constant)
  | known (id : TypeId)
  | knownInstance (id : TypeId)
  | imported (name : String)
  | builtins
  | module (name : String)
  | entry (entry : EntryId)
  | name (entry : EntryId) (name : String)
  /-- A member, asked for at a node or at one of its own. -/
  | member (of : Probe) (name : String) (node : Option Node)
  | aggregate (parts : List Probe)
  | union (parts : List Probe)
  deriving Inhabited

/-- The node of a probe, a fresh one when none is given. -/
def nodeOr (node : Option Node) : Analysis Node :=
  match node with
  | some node => return node
  | none => freshNode .passStmt

/-- The record of a name of a project module. -/
def entryName? (s : Session) (e : EntryId) (name : String) : Option VarId :=
  s.findName? (s.moduleScopeOf e) name

mutual

/-- The values that a probe names, as seen from a unit. -/
def Probe.eval (u : UnitId) : Probe → Analysis ValueSet
  | .empty => return .empty
  | .top => return .top
  | .object target => return .single (← valueOf target)
  | .constant value => constantSet value
  | .known id => return .single (← knownType id)
  | .knownInstance id => Session.knownInstance id
  | .imported text => return .single (← importDotted text true)
  | .builtins => return .single (← builtinsModule)
  | .module text => do
    match ← lookupModule text with
    | none => return .empty
    | some r => return .single ((← get).ref r).module
  | .entry e => return .single ((← get).entry e).module
  | .name e text => do
    let s ← get
    return ((s.entryName? e text).map s.types).getD .empty
  | .member of text node => do
    let values ← of.eval u
    answer.all values (.member text) ⟨← nodeOr node, u⟩
  | .aggregate parts => do
    let sets ← Probe.evalAll u parts
    return .single (← Session.aggregate ((sets.flatMap (·.items)).map some))
  | .union parts => return (← Probe.evalAll u parts).foldl ValueSet.join .empty

def Probe.evalAll (u : UnitId) : List Probe → Analysis (List ValueSet)
  | [] => return []
  | probe :: rest => do
    let first ← probe.eval u
    return first :: (← Probe.evalAll u rest)

end

/-- The types of every name of a map, in order of the names. -/
def typesOfNames (s : Session) (names : NameMap VarId) : List ValueId :=
  names.values.flatMap fun x => (s.types x).items

/-- The values that a value leads to. -/
def leadsTo (s : Session) (v : ValueId) : List ValueId :=
  match s.form v with
  | .function f => s.typesOfNames (s.scope f.scope).names ++ (s.types f.returns).items
  | .userClass c => (s.types c.bases).items ++ s.typesOfNames (s.scope c.scope).names
  | .userInstance cls attributes => s.typesOfNames attributes ++ [cls]
  | .boundMethod function self => [function, self]
  | .sequence _ elements | .iterator _ elements => (s.types elements).items
  | .super cls _ => [cls]
  | .wrapper w => w.wrapped.toList
  | .multiple members => members
  | _ => []

/-- Visits what is to do from the front, each item once, and puts what it leads to at the end. -/
def visit (next : ValueId → List ValueId) (done : List ValueId) : Nat → List ValueId → List ValueId
  | 0, _ => done
  | steps + 1, todo =>
    match todo.filter fun v => v ∉ done with
    | [] => done
    | v :: rest => visit next (done ++ [v]) steps (rest ++ next v)

/-- All values that can be reached, nearest first. -/
def reachable (s : Session) (start : List ValueId) : List ValueId :=
  visit s.leadsTo [] (s.values.size + 1) start

/-- The runs of callers' replacements since the last call. -/
def takeCalls : Analysis (List CallRecord) :=
  modifyGet fun s => (s.calls, { s with calls := [] })

/-- The lengths of the queue reported since the last call. -/
def takeReports : Analysis (List Nat) :=
  modifyGet fun s => (s.reports, { s with reports := [] })

/-- The text written to the log since the last call. -/
def takeLog : Analysis String :=
  modifyGet fun s =>
    let (text, log) := s.log.take
    (text, { s with log })

/-- Lets the log be written from now on. -/
def attachLog : Analysis Unit := modify fun s => { s with log := { s.log with attached := true } }

def turnLog (category : LogCategory) (on : Bool) : Analysis Unit :=
  modify fun s => { s with log := s.log.turn category on }

end Typeflow.Session
