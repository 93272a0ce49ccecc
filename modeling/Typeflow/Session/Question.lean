import Typeflow.Session.Imports

/-! The questions that are asked of a value, and the parts of a program that values are written into.
A question may lead to further ones; the rules that answer it take the way to ask them as an argument. -/
namespace Typeflow.Session

inductive Question where
  /-- What a member of the value is. -/
  | member (name : String)
  /-- What a call of the value yields; a positional argument has the empty name. -/
  | call (args : List ValueSet) (names : List String)
  /-- What iterates over the value. -/
  | iterator
  /-- What an iteration over the value yields. -/
  | elements
  /-- What the value has at an index. -/
  | index (at_ : ValueSet)

/-- Where a question is asked: the unit that depends on the answer and the node it stands at. -/
structure Site where
  node : Node
  unit : UnitId

/-- A way to ask a question of a value. -/
abbrev Ask := ValueId → Question → Site → Analysis ValueSet

/-- Asks every value of a set and joins the answers. -/
def Ask.all (ask : Ask) (values : ValueSet) (q : Question) (site : Site) : Analysis ValueSet :=
  ValueSet.joinM values.items fun v => ask v q site

def Ask.callAll (ask : Ask) (values : ValueSet) (args : List ValueSet) (names : List String)
    (site : Site) : Analysis ValueSet :=
  ask.all values (.call args names) site

/-- Asks for a member and calls what it is. -/
def Ask.callMember (ask : Ask) (v : ValueId) (name : String) (args : List ValueSet)
    (names : List String) (site : Site) : Analysis ValueSet := do
  ask.callAll (← ask v (.member name) site) args names site

/-- The scope of the unit that asks. -/
def scopeAt (s : Session) (site : Site) : ScopeId := (s.unit site.unit).scope

def locationAt (s : Session) (site : Site) : Location := s.placeOf site.unit site.node

/-- The value of the node at a site, made once for its scope. -/
def siteValue (site : Site) (make : Analysis ValueSet) : Analysis ValueSet := do
  nodeValue ((← get).scopeAt site) site.node.id make

/-- The types of a record, on which the asking unit depends from then on. -/
def readAt (x : VarId) (site : Site) : Analysis ValueSet := do
  addReader x site.unit
  return (← get).types x

/-- The record of an attribute of an instance, made when there is none. -/
def attributeOf (v : ValueId) (name : String) : Analysis (Option VarId) := do
  match (← get).form v with
  | .userInstance cls attributes =>
    match attributes.find? name with
    | some x => return some x
    | none =>
      let x ← newVariable (← get).options.limits.memberTypes
      setForm v (.userInstance cls (attributes.insert name x))
      return some x
  | _ => return none

/-- The record behind a member that programs can assign: a name of a module or class, or an attribute. -/
def memberRecord (v : ValueId) (name : String) : Analysis (Option VarId) := do
  match (← get).form v with
  | .module p => return some (← nameIn p.scope name)
  | .userClass c => return some (← nameIn c.scope name)
  | .userInstance .. => attributeOf v name
  | _ => return none

/-- Assigns to a member. Values without assignable members ignore it. -/
def setMember (v : ValueId) (name : String) (values : ValueSet) (site : Site) : Analysis Unit := do
  match ← memberRecord v name with
  | none => pure ()
  | some x => bindAt x ((← get).locationAt site) values

/-- Assigns to an element. Only sequences take notice. -/
def setIndex (v : ValueId) (values : ValueSet) : Analysis Unit := do
  match (← get).form v with
  | .sequence _ elements => let _ ← addTypes elements values
  | _ => pure ()

/-- A sequence of a type, which may be absent, without elements. -/
def newSequence (type : Found) : Analysis ValueId := do
  let name ← classNameOr type "sequence"
  let elements ← newVariable (← get).options.limits.variableTypes
  newValue name name .instance_ (.sequence type elements)

/-- An iterator of a type, which may be absent, over a record of elements. -/
def newIterator (type : Found) (elements : Option VarId) : Analysis ValueId := do
  let name ← classNameOr type "iterator"
  let elements ←
    match elements with
    | some shared => pure shared
    | none => newVariable (← get).options.limits.variableTypes
  newValue name name .instance_ (.iterator type elements)

/-- Adds values to the elements of every sequence of a set. -/
def addToSequences (values : ValueSet) (elements : ValueSet) : Analysis Unit :=
  values.items.forM fun v => do
    match (← get).form v with
    | .sequence _ x => let _ ← addTypes x elements
    | _ => pure ()

/-- Adds values to the elements of every iterator of a set. -/
def addToIterators (values : ValueSet) (elements : ValueSet) : Analysis Unit :=
  values.items.forM fun v => do
    match (← get).form v with
    | .iterator _ x => let _ ← addTypes x elements
    | _ => pure ()

/-- A wrapper around a function that may be absent. -/
def newWrapper (wrapped : Found) (qualified : String) (source : WrapperSource) : Analysis ValueId := do
  let s ← get
  let (name, memberType) :=
    match wrapped with
    | some v => ((s.value v).name, (s.value v).memberType)
    | none => (((Text.lastDot qualified).map (·.2)).getD qualified, .function)
  newValue name name memberType (.wrapper ⟨wrapped, qualified, source⟩)

/-- Whether a value read through a class binds to the instance: a function of the program, replaced or
not. -/
def bindsToInstance (s : Session) (v : ValueId) : Bool :=
  match s.form v with
  | .function _ => true
  | .wrapper w =>
    match w.wrapped with
    | some wrapped => (s.value wrapped).kind = .function
    | none => false
  | _ => false

/-- The instances of the type of a property. -/
def propertyValue (object : ObjectId) : Analysis ValueSet := do
  instancesOfType ((← get).host.typeOf? object)

/-- The instance that stands for a constant, a sequence or an iterator when their type is asked. -/
def exemplarOf (type : Found) : Analysis Found := do
  match type with
  | none => return none
  | some cls => builtinInstance cls

end Typeflow.Session
