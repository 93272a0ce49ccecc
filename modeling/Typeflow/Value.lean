import Typeflow.Override
import Typeflow.Tree
import Typeflow.Variable

/-! The abstract values that names take: classes, instances, functions, modules, constants, sequences
and sets of alternatives. -/
namespace Typeflow

inductive ValueKind where
  | builtinClass
  | builtinInstance
  | builtinFunction
  | builtinMethod
  | builtinProperty
  | builtinModule
  | constant
  | reflected
  | multipleMembers
  | module
  | userClass
  | userInstance
  | function
  | boundMethod
  | sequence
  | iterator
  | super
  | specialized
  deriving DecidableEq, Repr, Inhabited

namespace ValueKind

/-- Every kind, in the order of declaration. -/
def all : List ValueKind :=
  [.builtinClass, .builtinInstance, .builtinFunction, .builtinMethod, .builtinProperty,
    .builtinModule, .constant, .reflected, .multipleMembers, .module, .userClass, .userInstance,
    .function, .boundMethod, .sequence, .iterator, .super, .specialized]

def label : ValueKind → String
  | .builtinClass => "BuiltinClass"
  | .builtinInstance => "BuiltinInstance"
  | .builtinFunction => "BuiltinFunction"
  | .builtinMethod => "BuiltinMethod"
  | .builtinProperty => "BuiltinProperty"
  | .builtinModule => "BuiltinModule"
  | .constant => "Constant"
  | .reflected => "Reflected"
  | .multipleMembers => "MultipleMembers"
  | .module => "Module"
  | .userClass => "Class"
  | .userInstance => "Instance"
  | .function => "Function"
  | .boundMethod => "BoundMethod"
  | .sequence => "Sequence"
  | .iterator => "Iterator"
  | .super => "Super"
  | .specialized => "Specialized"

end ValueKind

/-- The category of a value as it is reported to readers. -/
inductive MemberType where
  | unknown
  | class_
  | instance_
  | function
  | method
  | property
  | module
  | constant
  | multiple
  deriving DecidableEq, Repr, Inhabited

namespace MemberType

/-- Every category, in the order of declaration. -/
def all : List MemberType :=
  [.unknown, .class_, .instance_, .function, .method, .property, .module, .constant, .multiple]

def label : MemberType → String
  | .unknown => "unknown"
  | .class_ => "class"
  | .instance_ => "instance"
  | .function => "function"
  | .method => "method"
  | .property => "property"
  | .module => "module"
  | .constant => "constant"
  | .multiple => "multiple"

/-- The category that all have in common: unknown of none, multiple when they differ. -/
def common : List MemberType → MemberType
  | [] => .unknown
  | first :: rest => if rest.all (· = first) then first else .multiple

end MemberType

structure ProjectModule where
  entry : EntryId
  scope : ScopeId

/-- The code of a definition of the analysed program. -/
structure Code where
  entry : Option EntryId
  /-- The body of the definition; none once its tree is gone. -/
  body : Option Body
  scope : ScopeId
  /-- The unit that runs the body, once it is needed. -/
  unit : Option UnitId := none

/-- A class of the analysed program. -/
structure UserClass extends Code where
  bases : VarId
  /-- Whether a search through the bases is under way. -/
  resolving : Bool := false

/-- A function of the analysed program. -/
structure UserFunction extends Code where
  params : List (String × ParamKind)
  returns : VarId

/-- Where a wrapper finds its replacement: in the table of a module at each call, or fixed. -/
inductive WrapperSource where
  | table (module : ValueId)
  | fixed (specialization : Specialization)

/-- A function whose calls are replaced. -/
structure Wrapper where
  wrapped : Option ValueId
  qualifiedName : String
  source : WrapperSource

inductive Form where
  | builtinClass (type : ObjectId)
  | builtinInstance (ofClass : ValueId)
  | builtinFunction (object : ObjectId)
  | builtinMethod (object : ObjectId)
  | builtinProperty (object : ObjectId)
  | builtinModule (object : ObjectId)
  | constant (type : Option ValueId) (value : Option Constant)
  | reflected (object : ObjectId)
  | multiple (members : List ValueId)
  | module (m : ProjectModule)
  | userClass (c : UserClass)
  | userInstance (ofClass : ValueId) (attributes : NameMap VarId)
  | function (f : UserFunction)
  | boundMethod (function self : ValueId)
  /-- A list or tuple of a type, which may be absent, with one record for all its elements. -/
  | sequence (type : Option ValueId) (elements : VarId)
  | iterator (type : Option ValueId) (elements : VarId)
  | super (ofClass : ValueId) (instances : ValueSet)
  | wrapper (w : Wrapper)

def Form.kind : Form → ValueKind
  | .builtinClass _ => .builtinClass
  | .builtinInstance _ => .builtinInstance
  | .builtinFunction _ => .builtinFunction
  | .builtinMethod _ => .builtinMethod
  | .builtinProperty _ => .builtinProperty
  | .builtinModule _ => .builtinModule
  | .constant _ _ => .constant
  | .reflected _ => .reflected
  | .multiple _ => .multipleMembers
  | .module _ => .module
  | .userClass _ => .userClass
  | .userInstance _ _ => .userInstance
  | .function _ => .function
  | .boundMethod _ _ => .boundMethod
  | .sequence _ _ => .sequence
  | .iterator _ _ => .iterator
  | .super _ _ => .super
  | .wrapper _ => .specialized

/-- Changes the code of a definition. -/
def Form.mapCode (change : Code → Code) : Form → Form
  | .userClass c => .userClass { c with toCode := change c.toCode }
  | .function f => .function { f with toCode := change f.toCode }
  | form => form

/-- The code of a definition; other values have none. -/
def Form.code? : Form → Option Code
  | .userClass c => some c.toCode
  | .function f => some f.toCode
  | _ => none

/-- Further values that a value keeps from when they are first needed. -/
inductive Slot where
  /-- The one instance of a class. -/
  | instance_
  /-- The wrapper of a replaced member of a builtin class or module. -/
  | member (name : String)
  /-- What makes the instances of the root class. -/
  | constructor
  /-- The wrapper of a function that its module replaces. -/
  | wrapper
  /-- The tuple of the left-over positional arguments of a function. -/
  | rest
  /-- The iterator over a sequence. -/
  | iterator
  /-- What changes the elements of a sequence. -/
  | mutator (name : String)
  /-- What yields the next element of an iterator. -/
  | next
  deriving DecidableEq, Repr

/-- A value. Its name, description and category are settled when it is made. -/
structure Value where
  name : String
  description : String
  memberType : MemberType
  form : Form
  /-- The replacements installed on a module, by function or `class.method`. -/
  table : NameMap Specialization := {}
  kept : List (Slot × ValueId) := []

namespace Value

instance : Inhabited Value := ⟨{ name := "", description := "", memberType := .unknown, form := .reflected ⟨0⟩ }⟩

def kind (v : Value) : ValueKind := v.form.kind

/-- What the value keeps in a slot. -/
def kept? (v : Value) (slot : Slot) : Option ValueId := v.kept.lookup slot

/-- Fills a slot that is still free. -/
def keep (slot : Slot) (other : ValueId) (v : Value) : Value := { v with kept := (slot, other) :: v.kept }

@[simp] theorem kept?_keep (v : Value) (slot asked : Slot) (other : ValueId) :
    (v.keep slot other).kept? asked = if asked = slot then some other else v.kept? asked := by
  by_cases h : asked = slot
  · simp [kept?, keep, h]
  · have hb : (asked == slot) = false := by simpa using h
    simp [kept?, keep, List.lookup_cons, hb, h]

/-- Modules and sets of alternatives have children and a table of replacements. -/
def isModule (v : Value) : Bool :=
  match v.form with
  | .builtinModule _ | .module _ | .multiple _ => true
  | _ => false

/-- A named constant carries no value. -/
def constant? (v : Value) : Option Constant :=
  match v.form with
  | .constant _ value => value
  | _ => none

/-- The text of a string constant. -/
def text? (v : Value) : Option String := v.constant?.bind Constant.text?

end Value

end Typeflow
