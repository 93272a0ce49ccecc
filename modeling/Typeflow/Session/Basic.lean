import Typeflow.Cache
import Typeflow.Fault
import Typeflow.Log
import Typeflow.Metrics
import Typeflow.Value
import Typeflow.WorkQueue

/-! The state of a session: every value, name, scope and unit made so far, the modules and resources,
and the queue of work. Actions may fail; what they did before stays done. -/
namespace Typeflow

inductive ScopeKind where
  | module
  | class_
  | function
  deriving DecidableEq, Repr, Inhabited

/-- The names of a module, class or function, and the values made for single nodes. -/
structure Scope where
  kind : ScopeKind := .module
  outer : Option ScopeId := none
  /-- The module, class or function that the scope belongs to. -/
  owner : Option ValueId := none
  /-- The cap of the names made in the scope. -/
  cap : Nat := 0
  names : NameMap VarId := {}
  nodeValues : List (NodeId × ValueSet) := []
  deriving Inhabited

/-- A body to run in a scope. -/
structure AnalysisUnit where
  entry : Option EntryId := none
  scope : ScopeId
  body : Body
  /-- A retired unit is never queued or run again. -/
  retired : Bool := false
  deriving Inhabited

/-- A module of the project. -/
structure Entry where
  name : String
  path : String
  module : ValueId
  tree : Option Tree := none
  unit : Option UnitId := none
  /-- All units made for the current tree. -/
  units : List UnitId := []
  /-- The functions and classes defined by the current tree. -/
  definitions : List ValueId := []
  removed : Bool := false
  /-- How often an analysis of the module was asked for. -/
  version : Nat := 0
  deriving Inhabited

/-- A file that is no code and declares objects by name. -/
structure Resource where
  path : String
  objects : NameMap (Option ObjectId) := {}
  dependents : List EntryId := []
  removed : Bool := false
  deriving Inhabited

/-- A cell of the table of modules. A loaded cell without a module is known to be empty. -/
structure ModuleRef where
  module : Option ValueId := none
  loaded : Bool := false
  valid : Bool := true
  deriving DecidableEq, Repr, Inhabited

def ModuleRef.present (ref : ModuleRef) : Option ValueId := if ref.loaded then ref.module else none

/-- A run of a caller's replacement. -/
structure CallRecord where
  tag : Option String
  node : Node
  args : List ValueSet
  names : List String

structure Session where
  options : Options := {}
  host : Host := {}
  /-- What the host asks for when it is told that the session is ready. -/
  hostRequests : List Request := []
  values : Array Value := #[]
  records : Array Variable := #[]
  scopes : Array Scope := #[]
  units : Array AnalysisUnit := #[]
  entries : Array Entry := #[]
  resources : Array Resource := #[]
  refs : Array ModuleRef := #[]
  /-- The units that the session still holds. -/
  liveUnits : List UnitId := []
  /-- The table of modules by name. -/
  modules : NameMap RefId := {}
  modulesByPath : NameMap ValueId := {}
  resourcesByPath : NameMap ResourceId := {}
  objectValues : Cache ObjectId ValueId := {}
  constants : Cache Constant ValueId := {}
  /-- Sets of alternatives, by the text of their numbers. -/
  aggregates : Cache String ValueId := {}
  boundMethods : Cache (ValueId × ValueId) ValueId := {}
  /-- Every registration made, by module. -/
  registrations : NameMap (List Registration) := {}
  queue : WorkQueue := {}
  /-- Units to run again when a module of the name appears. -/
  watchers : NameMap (List UnitId) := {}
  directories : NameMap Unit := {}
  directoryListeners : Nat := 0
  directoryCalls : Nat := 0
  /-- Every how many runs the length of the queue is reported. -/
  reportEvery : Option Nat := none
  reports : List Nat := []
  calls : List CallRecord := []
  metrics : Metrics := {}
  log : Log := {}
  nextNode : Nat := 0
  deriving Inhabited

/-- An action on a session. -/
abbrev Analysis := EStateM Fault Session

namespace Session

def value (s : Session) (v : ValueId) : Value := s.values.getD v.index default

def form (s : Session) (v : ValueId) : Form := (s.value v).form

def var (s : Session) (x : VarId) : Variable := s.records.getD x.index default

def scope (s : Session) (c : ScopeId) : Scope := s.scopes.getD c.index default

def unit (s : Session) (u : UnitId) : AnalysisUnit := s.units.getD u.index ⟨none, ⟨0⟩, default, true⟩

def entry (s : Session) (e : EntryId) : Entry := s.entries.getD e.index default

def resource (s : Session) (r : ResourceId) : Resource := s.resources.getD r.index default

def ref (s : Session) (r : RefId) : ModuleRef := s.refs.getD r.index default

def types (s : Session) (x : VarId) : ValueSet := (s.var x).types

/-- Whether a unit may still run. -/
def isAlive (s : Session) (u : UnitId) : Bool := !(s.unit u).retired

def setValue (v : ValueId) (value : Value) (s : Session) : Session :=
  { s with values := s.values.setIfInBounds v.index value }

def setForm (v : ValueId) (form : Form) : Analysis Unit :=
  modify fun s => s.setValue v { s.value v with form }

def updateCode (v : ValueId) (change : Code → Code) : Analysis Unit :=
  modify fun s => s.setValue v { s.value v with form := (s.form v).mapCode change }

def newValue (name description : String) (memberType : MemberType) (form : Form) : Analysis ValueId :=
  modifyGet fun s =>
    (⟨s.values.size⟩, { s with values := s.values.push { name, description, memberType, form } })

/-- What a value keeps in a slot, made when the slot is free. -/
def keptOr (v : ValueId) (slot : Slot) (make : Analysis ValueId) : Analysis ValueId := do
  match ((← get).value v).kept? slot with
  | some made => return made
  | none =>
    let made ← make
    modify fun s => s.setValue v ((s.value v).keep slot made)
    return made

def newVariable (cap : Nat) : Analysis VarId :=
  modifyGet fun s => (⟨s.records.size⟩, { s with records := s.records.push { cap } })

def setVariable (x : VarId) (record : Variable) : Analysis Unit :=
  modify fun s => { s with records := s.records.setIfInBounds x.index record }

def newScope (scope : Scope) : Analysis ScopeId :=
  modifyGet fun s => (⟨s.scopes.size⟩, { s with scopes := s.scopes.push scope })

def setScope (c : ScopeId) (scope : Scope) : Analysis Unit :=
  modify fun s => { s with scopes := s.scopes.setIfInBounds c.index scope }

def updateEntry (e : EntryId) (f : Entry → Entry) : Analysis Unit :=
  modify fun s => { s with entries := s.entries.modify e.index f }

def updateResource (r : ResourceId) (f : Resource → Resource) : Analysis Unit :=
  modify fun s => { s with resources := s.resources.modify r.index f }

def newRef (ref : ModuleRef) : Analysis RefId :=
  modifyGet fun s => (⟨s.refs.size⟩, { s with refs := s.refs.push ref })

def updateRef (r : RefId) (f : ModuleRef → ModuleRef) : Analysis Unit :=
  modify fun s => { s with refs := s.refs.modify r.index f }

def count (name : String) (delta : Nat) : Analysis Unit :=
  modify fun s => { s with metrics := s.metrics.count name delta.toUInt64 }

def writeLog (category : LogCategory) (message : String) : Analysis Unit :=
  modify fun s => { s with log := s.log.write category message }

/-- Whether the analysed language is the newer of the two. -/
def isV3 (s : Session) : Bool := s.options.language = .v3

/-- The method of an iterator that yields the next element. -/
def nextMethod (s : Session) : String := if s.isV3 then "__next__" else "next"

end Session

end Typeflow
