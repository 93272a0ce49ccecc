import Typeflow.Session.Names

/-! The values of a session. Each host object, constant, set of alternatives and bound method has one
value, made when it is first asked for. -/
namespace Typeflow.Session

/-- The value found for a type identifier, host object or constant; it may be absent. -/
abbrev Found := Option ValueId

def objectField : CacheField Session ObjectId ValueId where
  read s := s.objectValues
  write cache s := { s with objectValues := cache }

def constantField : CacheField Session Constant ValueId where
  read s := s.constants
  write cache s := { s with constants := cache }

def aggregateField : CacheField Session String ValueId where
  read s := s.aggregates
  write cache s := { s with aggregates := cache }

def boundField : CacheField Session (ValueId × ValueId) ValueId where
  read s := s.boundMethods
  write cache s := { s with boundMethods := cache }

/-- The value of an object, made by `make` when there is none yet. -/
def objectValue (object : ObjectId) (make : Analysis ValueId) : Analysis Found :=
  objectField.recall object do
    count "cache_misses" 1
    return some (← make)

/-- The class of a host type. -/
def classOf (type : ObjectId) : Analysis Found :=
  objectValue type do
    let name := (← get).host.nameOf type
    newValue name ("type " ++ name) .class_ (.builtinClass type)

/-- The one instance of a builtin class. -/
def builtinInstance (cls : ValueId) : Analysis Found := do
  let value := (← get).value cls
  match value.form with
  | .builtinClass _ =>
    return some (← keptOr cls .instance_
      (newValue value.name value.name .instance_ (.builtinInstance cls)))
  | _ => return none

/-- The one instance of a class of the program. -/
def userInstance (cls : ValueId) : Analysis Found := do
  let value := (← get).value cls
  match value.form with
  | .userClass _ =>
    return some (← keptOr cls .instance_
      (newValue value.name (value.name ++ " instance") .instance_ (.userInstance cls {})))
  | _ => return none

/-- The instances of a class; other values have none. -/
def instancesOf (v : ValueId) : Analysis ValueSet := do
  match (← get).form v with
  | .builtinClass _ => return .single (← builtinInstance v)
  | .userClass _ => return .single (← userInstance v)
  | _ => return .empty

/-- The class of a type that may be absent. -/
def classOf? (type : Option ObjectId) : Analysis Found :=
  match type with
  | none => return none
  | some type => classOf type

/-- The instances of a type that may be absent. -/
def instancesOfType (type : Option ObjectId) : Analysis ValueSet := do
  match ← classOf? type with
  | none => return .empty
  | some cls => instancesOf cls

def knownType (id : TypeId) : Analysis Found := do classOf? ((← get).host.typeFor? id)

def knownInstance (id : TypeId) : Analysis ValueSet := do
  match ← knownType id with
  | none => return .empty
  | some cls => instancesOf cls

/-- The name of a class, or another word when the class is absent. -/
def classNameOr (cls : Found) (word : String) : Analysis String := do
  match cls with
  | none => return word
  | some cls => return ((← get).value cls).name

/-- The value of a constant. -/
def constantValue (value : Constant) : Analysis Found :=
  constantField.recall value do
    count "cache_misses" 1
    let type ← knownType (value.typeId (← get).isV3)
    let name ← classNameOr type "constant"
    return some (← newValue name value.describe .constant (.constant type (some value)))

def constantSet (value : Constant) : Analysis ValueSet := return .single (← constantValue value)

/-- The text that a set of alternatives is kept under: their numbers, each with a comma behind it. -/
def alternativesKey (members : List ValueId) : String :=
  members.foldl (fun key v => key ++ (toString v.index ++ ",")) ""

/-- The value that stands for several alternatives: none for none, and the only one itself. -/
def aggregate (members : List Found) : Analysis Found := do
  match (ValueList.ofList (members.filterMap fun v => v)).toList with
  | [] => return none
  | [only] => return some only
  | first :: rest =>
    aggregateField.recall (alternativesKey (first :: rest)) do
      let s ← get
      let descriptions := (first :: rest).map fun v => (s.value v).description
      return some (← newValue (s.value first).name ("one of: " ++ ", ".intercalate descriptions)
        .multiple (.multiple (first :: rest)))

/-- A function bound to an instance. -/
def boundMethod (function self : ValueId) : Analysis Found :=
  boundField.recall (function, self) do
    let s ← get
    let name := (s.value function).name
    return some (← newValue name ("method " ++ name ++ " of " ++ (s.value self).name) .method
      (.boundMethod function self))

/-- The value of a host module. -/
def moduleOfObject (object : ObjectId) : Analysis Found :=
  objectValue object do
    let name := (← get).host.nameOf object
    newValue name ("built-in module " ++ name) .module (.builtinModule object)

/-- The value of an object that is not what it claims to be: an instance of the type declared for it.
Without one this is a breach of contract, and a lenient session takes a plain object instead. -/
def unclassifiedValue (object : ObjectId) : Analysis Found := do
  let declared ← classOf? ((← get).host.declaredType? object)
  match declared with
  | some cls => builtinInstance cls
  | none =>
    count "host_contract_breaches" 1
    let kind := ((← get).host.object object).declared
    if (← get).options.strictHost then throw (.unclassifiable kind)
    writeLog .host (Fault.unclassifiableText kind)
    match ← knownType .object with
    | some cls => builtinInstance cls
    | none => return none

/-- The value of an object of a kind that has no parts. -/
def simpleValue (object : ObjectId) : HostKind → Analysis Found
  | .type => classOf object
  | .function => objectValue object do
    let name := (← get).host.nameOf object
    newValue name ("built-in function " ++ name) .function (.builtinFunction object)
  | .methodDescriptor => objectValue object do
    let host := (← get).host
    let name := ((host.functionOf? object).map host.nameOf).getD "method"
    newValue name name .method (.builtinMethod object)
  | .property => objectValue object do
    newValue "property" "property" .property (.builtinProperty object)
  | .module => moduleOfObject object
  | .constant => objectValue object do
    let type ← classOf? ((← get).host.typeOf? object)
    let name ← classNameOr type "constant"
    newValue name name .constant (.constant type none)
  | .primitive => do
    match ((← get).host.object object).shape with
    | .primitive value => constantValue value
    | _ => return none
  | .memberContainer => objectValue object do
    newValue "<reflected>" "<reflected>" .unknown (.reflected object)
  | .multipleMembers | .unknown => unclassifiedValue object

/-- The value of an object; an absent object is the constant none. `depth` bounds how far alternatives
are nested in alternatives. -/
def valueOfWithin : Nat → Option ObjectId → Analysis Found
  | _, none => constantValue .none
  | 0, some _ => throw .endless
  | depth + 1, some object => do
    let host := (← get).host
    match host.classify object with
    | .multipleMembers => aggregate (← (host.alternatives object).mapM (valueOfWithin depth))
    | kind => simpleValue object kind

/-- More than the number of objects: no acyclic host nests deeper. -/
def objectDepth (s : Session) : Nat := s.host.objects.size + 1

def valueOf (object : Option ObjectId) : Analysis Found := do
  valueOfWithin (← get).objectDepth object

def valuesOf (objects : List (Option ObjectId)) : Analysis ValueSet :=
  return .ofList (← objects.mapM valueOf)

/-- A type applied to other types. -/
def genericType (type : Option ObjectId) (arguments : List ObjectId) : Analysis Found := do
  match type with
  | none => return none
  | some type =>
    let made ← modifyGet fun s =>
      let (made, host) := s.host.instantiate type arguments
      (made, { s with host })
    classOf? made

/-- The members of a host container, by name; absent members are left out. -/
def objectMembers (object : ObjectId) : Analysis (NameMap ValueSet) := do
  let members := ((← get).host.members object).toList
  let found ← members.filterMapM fun pair => do
    match pair.2 with
    | none => return none
    | some member => return some (pair.1, ValueSet.single (← valueOf (some member)))
  return ⟨found⟩

/-- Asks the host for a module. -/
def importObject (name : String) : Analysis (Option ObjectId) :=
  modifyGet fun s =>
    let (found, host) := s.host.importModule name
    (found, { s with host })

end Typeflow.Session
