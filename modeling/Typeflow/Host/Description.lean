import Typeflow.Host

/-! Hosts described by names. A description adds objects and modules to a standard host, and every
object may refer to every other one, so that cycles can be written down. -/
namespace Typeflow

/-- A reference to an object of a host that is being described. -/
inductive HostRef where
  | type (id : TypeId)
  | function (name : String)
  | module (name : String)
  | object (id : String)
  deriving DecidableEq, Repr

/-- Text has one type for both of its identifiers. -/
def HostRef.canonical : HostRef → HostRef
  | .type .unicode => .type .str
  | ref => ref

abbrev MemberRefs := NameMap (Option HostRef)

/-- An object before its references are resolved. -/
structure ObjectPlan where
  ref : HostRef
  shape : Shape HostRef
  declared : HostKind

structure HostDescription where
  /-- The name of the builtin module. -/
  builtins : String
  objects : List ObjectPlan := []
  /-- Modules that are importable and announced. -/
  modules : List (String × MemberRefs) := []
  /-- Modules that are importable only. -/
  unlisted : List (String × MemberRefs) := []
  /-- Names that are announced only. -/
  listed : List String := []
  extensions : List (HostRef × MemberRefs) := []
  withoutTypes : List TypeId := []
  declaredTypes : List (HostRef × HostRef) := []
  generic : Bool := true
  deriving Inhabited

namespace HostDescription

/-- The types that every host has. -/
def standardTypes : List TypeId :=
  [.object, .type, .noneType, .bool, .int, .long, .float, .complex, .str, .bytes, .list, .tuple, .dict,
    .set, .function, .builtinFunction, .module, .ellipsis, .listIterator, .callableIterator]

/-- The functions of every builtin module, with what they return. -/
def standardFunctions : List (String × List TypeId) :=
  [("len", [.int]), ("abs", [.int]), ("isinstance", [.bool]), ("range", [.list]), ("min", []),
    ("max", []), ("getattr", []), ("next", []), ("iter", []), ("super", [])]

def typePlan (builtins : String) (id : TypeId) : ObjectPlan :=
  let members : MemberRefs :=
    if id = .str then NameMap.ofList [("upper", some (.function "upper"))] else {}
  ⟨.type id, .type id.label builtins id members, .type⟩

def functionPlan (builtins name : String) (returns : List TypeId) : ObjectPlan :=
  ⟨.function name, .function name builtins (returns.map fun id => some (.type id)), .function⟩

def modulePlan (name : String) (members : MemberRefs) : ObjectPlan :=
  ⟨.module name, .module name members, .module⟩

def builtinMembers : MemberRefs :=
  NameMap.ofList
    (standardTypes.map (fun id => (id.label, some (.type id))) ++
      standardFunctions.map fun pair => (pair.1, some (.function pair.1)))

/-- The objects of a host without additions. -/
def standardPlans (builtins : String) : List ObjectPlan :=
  standardTypes.map (typePlan builtins) ++
    functionPlan builtins "upper" [.str] ::
      standardFunctions.map (fun pair => functionPlan builtins pair.1 pair.2) ++
    [modulePlan builtins builtinMembers]

def extendPlan (plans : List ObjectPlan) (ref : HostRef) (members : MemberRefs) : List ObjectPlan :=
  plans.map fun plan =>
    if plan.ref = ref.canonical then { plan with shape := plan.shape.extend members } else plan

/-- Adds a module, or members to one that is there. -/
def addModule (plans : List ObjectPlan) (name : String) (members : MemberRefs) : List ObjectPlan :=
  if plans.any fun plan => plan.ref = .module name then extendPlan plans (.module name) members
  else plans ++ [modulePlan name members]

def plans (d : HostDescription) : List ObjectPlan :=
  let named := (d.modules ++ d.unlisted).foldl (fun plans pair => addModule plans pair.1 pair.2)
    (standardPlans d.builtins)
  d.extensions.foldl (fun plans pair => extendPlan plans pair.1 pair.2) (named ++ d.objects)

/-- The number of the object that a reference stands for. -/
def resolve (plans : List ObjectPlan) (ref : HostRef) : Option ObjectId :=
  (plans.findIdx? fun plan => plan.ref = ref.canonical).map ObjectId.mk

/-- Resolves a reference to an object of one kind only. -/
def resolveAs (plans : List ObjectPlan) (kind : HostKind) (ref : HostRef) : Option ObjectId :=
  match plans.find? fun plan => plan.ref = ref.canonical with
  | some plan => if plan.shape.kind = kind then resolve plans ref else none
  | none => none

def resolveMembers (plans : List ObjectPlan) (members : MemberRefs) : NameMap (Option ObjectId) :=
  members.map fun ref => ref.bind (resolve plans)

/-- Replaces references by numbers. Where a type or function is asked for, any other object counts
as absent. -/
def wire (plans : List ObjectPlan) : Shape HostRef → Shape ObjectId
  | .type name owner typeId members => .type name owner typeId (resolveMembers plans members)
  | .function name owner returns =>
    .function name owner (returns.map fun ref => ref.bind (resolveAs plans .type))
  | .method function => .method (function.bind (resolveAs plans .function))
  | .property type => .property (type.bind (resolveAs plans .type))
  | .module name members => .module name (resolveMembers plans members)
  | .constant type => .constant (type.bind (resolveAs plans .type))
  | .primitive value => .primitive value
  | .container members => .container (resolveMembers plans members)
  | .multiple members => .multiple (members.map fun ref => ref.bind (resolve plans))
  | .bare => .bare

/-- The number of the object behind a reference of the description. -/
def lookup? (d : HostDescription) (ref : HostRef) : Option ObjectId := resolve d.plans ref

/-- The number of the type behind a reference. -/
def lookupType? (d : HostDescription) (ref : HostRef) : Option ObjectId := resolveAs d.plans .type ref

def toHost (d : HostDescription) : Host :=
  let plans := d.plans
  let importable := (d.builtins :: d.modules.map (·.1) ++ d.unlisted.map (·.1)).filterMap fun name =>
    (resolve plans (.module name)).map (name, ·)
  let types := ((.unicode :: standardTypes).filter fun id => !d.withoutTypes.contains id).filterMap fun id =>
    (resolve plans (.type id)).map (id, ·)
  { objects := (plans.map fun plan => ⟨wire plans plan.shape, plan.declared⟩).toArray
    importable := NameMap.ofList importable
    moduleNames := d.builtins :: d.modules.map (·.1) ++ d.listed
    types
    declaredTypes := d.declaredTypes.filterMap fun pair =>
      match resolve plans pair.1, resolveAs plans .type pair.2 with
      | some object, some type => some (object, type)
      | _, _ => none
    generic := d.generic }

end HostDescription

end Typeflow
