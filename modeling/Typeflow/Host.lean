import Typeflow.Constant
import Typeflow.NameMap

/-! The host that an analysis runs against: a graph of objects with named members, the modules that
it can import, and the types that it has for the known type identifiers. -/
namespace Typeflow

structure ObjectId where
  index : Nat
  deriving DecidableEq, Repr, Inhabited

inductive HostKind where
  | type
  | function
  | methodDescriptor
  | property
  | module
  | constant
  | primitive
  | memberContainer
  | multipleMembers
  | unknown
  deriving DecidableEq, Repr, Inhabited

namespace HostKind

/-- Every kind, in the order of declaration. -/
def all : List HostKind :=
  [.type, .function, .methodDescriptor, .property, .module, .constant, .primitive, .memberContainer,
    .multipleMembers, .unknown]

def label : HostKind → String
  | .type => "type"
  | .function => "function"
  | .methodDescriptor => "method_descriptor"
  | .property => "property"
  | .module => "module"
  | .constant => "constant"
  | .primitive => "primitive"
  | .memberContainer => "member_container"
  | .multipleMembers => "multiple_members"
  | .unknown => "unknown"

def ofLabel? (text : String) : Option HostKind := all.find? fun kind => kind.label = text

end HostKind

/-- What an object can do. `ρ` is the type of references to other objects; a reference may be absent. -/
inductive Shape (ρ : Type) where
  | type (name owner : String) (typeId : TypeId) (members : NameMap (Option ρ))
  | function (name owner : String) (returns : List (Option ρ))
  | method (function : Option ρ)
  | property (type : Option ρ)
  | module (name : String) (members : NameMap (Option ρ))
  | constant (type : Option ρ)
  | primitive (value : Constant)
  | container (members : NameMap (Option ρ))
  | multiple (members : List (Option ρ))
  | bare
  deriving Inhabited

namespace Shape

variable {ρ : Type}

/-- The kind that an object of this shape declares when it tells the truth. -/
def kind : Shape ρ → HostKind
  | .type .. => .type
  | .function .. => .function
  | .method .. => .methodDescriptor
  | .property .. => .property
  | .module .. => .module
  | .constant .. => .constant
  | .primitive .. => .primitive
  | .container .. => .memberContainer
  | .multiple .. => .multipleMembers
  | .bare => .unknown

/-- Whether an object of this shape can serve as the given kind. Types and modules are containers
too. -/
def serves (shape : Shape ρ) : HostKind → Bool
  | .unknown => false
  | .memberContainer =>
    match shape with
    | .type .. | .module .. | .container .. => true
    | _ => false
  | kind => shape.kind = kind

/-- The members of a container, type or module; other objects have none. -/
def members : Shape ρ → NameMap (Option ρ)
  | .type _ _ _ members | .module _ members | .container members => members
  | _ => {}

/-- Adds members, later ones in the place of earlier ones. -/
def extend (shape : Shape ρ) (more : NameMap (Option ρ)) : Shape ρ :=
  let merge (members : NameMap (Option ρ)) :=
    more.toList.foldl (fun m pair => m.insert pair.1 pair.2) members
  match shape with
  | .type name owner typeId members => .type name owner typeId (merge members)
  | .module name members => .module name (merge members)
  | .container members => .container (merge members)
  | other => other

end Shape

structure HostObject where
  shape : Shape ObjectId
  /-- The kind that the object claims to be. -/
  declared : HostKind
  deriving Inhabited

/-- The declared kind when the object can serve as it, and `unknown` otherwise. -/
def HostObject.classify (object : HostObject) : HostKind :=
  if object.shape.serves object.declared then object.declared else .unknown

structure Host where
  objects : Array HostObject := #[]
  /-- The modules that can be imported. -/
  importable : NameMap ObjectId := {}
  /-- The module names that the host announces. -/
  moduleNames : List String := []
  types : List (TypeId × ObjectId) := []
  /-- Types declared for objects that have no kind of their own. -/
  declaredTypes : List (ObjectId × ObjectId) := []
  /-- Whether types can be instantiated with other types. -/
  generic : Bool := true
  instantiations : NameMap ObjectId := {}
  /-- How often each module was asked for. -/
  imports : NameMap Nat := {}
  /-- How often the host was told that a session is ready for its registrations. -/
  initializations : Nat := 0
  deriving Inhabited

namespace Host

def object (host : Host) (id : ObjectId) : HostObject := host.objects.getD id.index default

def classify (host : Host) (id : ObjectId) : HostKind := (host.object id).classify

def members (host : Host) (id : ObjectId) : NameMap (Option ObjectId) := (host.object id).shape.members

/-- A member that is listed but absent reads as no member. -/
def member? (host : Host) (id : ObjectId) (name : String) : Option ObjectId :=
  ((host.members id).find? name).join

/-- The type that stands for an identifier. -/
def typeFor? (host : Host) (id : TypeId) : Option ObjectId := host.types.lookup id

def declaredType? (host : Host) (id : ObjectId) : Option ObjectId := host.declaredTypes.lookup id

def typeId (host : Host) (id : ObjectId) : TypeId :=
  match (host.object id).shape with
  | .type _ _ typeId _ => typeId
  | _ => .unknown

/-- The name of a type, module or function. -/
def nameOf (host : Host) (id : ObjectId) : String :=
  match (host.object id).shape with
  | .type name .. | .function name .. | .module name _ => name
  | _ => ""

/-- The module that declares a type. -/
def moduleOf (host : Host) (id : ObjectId) : String :=
  match (host.object id).shape with
  | .type _ owner .. => owner
  | _ => ""

/-- The types of what a function or method returns; absent types are left out. -/
def returnsOf (host : Host) (id : ObjectId) : List ObjectId :=
  match (host.object id).shape with
  | .function _ _ returns => returns.filterMap fun type => type
  | _ => []

/-- The function behind a method. -/
def functionOf? (host : Host) (id : ObjectId) : Option ObjectId :=
  match (host.object id).shape with
  | .method function => function
  | _ => none

/-- The type of a property or of a named constant. -/
def typeOf? (host : Host) (id : ObjectId) : Option ObjectId :=
  match (host.object id).shape with
  | .property type | .constant type => type
  | _ => none

/-- The alternatives of an ambiguous binding. -/
def alternatives (host : Host) (id : ObjectId) : List (Option ObjectId) :=
  match (host.object id).shape with
  | .multiple members => members
  | _ => []

/-- Asks for a module; every request is counted. -/
def importModule (host : Host) (name : String) : Option ObjectId × Host :=
  (host.importable.find? name,
    { host with imports := host.imports.insert name (host.imports.findD name 0 + 1) })

/-- The longest name, in bytes, that an instantiated type may have. -/
def longestInstantiation : Nat := 60

/-- The name of a type applied to other types. -/
def instantiationName (host : Host) (type : ObjectId) (arguments : List ObjectId) : String :=
  host.nameOf type ++ "[" ++ ", ".intercalate (arguments.map host.nameOf) ++ "]"

/-- Applies a type to other types. One type is made per name, without members. -/
def instantiate (host : Host) (type : ObjectId) (arguments : List ObjectId) :
    Option ObjectId × Host :=
  let name := host.instantiationName type arguments
  if !host.generic || longestInstantiation < name.utf8ByteSize then (none, host)
  else
    match host.instantiations.find? name with
    | some made => (some made, host)
    | none =>
      let made : ObjectId := ⟨host.objects.size⟩
      (some made,
        { host with
          objects := host.objects.push ⟨.type name (host.moduleOf type) .unknown {}, .type⟩
          instantiations := host.instantiations.insert name made })

end Host

end Typeflow
