/-! The types that the analysis knows by themselves. -/
namespace Typeflow

inductive TypeId where
  | unknown
  | object
  | type
  | noneType
  | bool
  | int
  | long
  | float
  | complex
  | str
  | unicode
  | bytes
  | list
  | tuple
  | dict
  | set
  | function
  | builtinFunction
  | module
  | ellipsis
  | listIterator
  | callableIterator
  deriving DecidableEq, Repr, Inhabited

namespace TypeId

/-- Every identifier, in the order of declaration. -/
def all : List TypeId :=
  [.unknown, .object, .type, .noneType, .bool, .int, .long, .float, .complex, .str, .unicode, .bytes,
    .list, .tuple, .dict, .set, .function, .builtinFunction, .module, .ellipsis, .listIterator,
    .callableIterator]

def label : TypeId → String
  | .unknown => "unknown"
  | .object => "object"
  | .type => "type"
  | .noneType => "NoneType"
  | .bool => "bool"
  | .int => "int"
  | .long => "long"
  | .float => "float"
  | .complex => "complex"
  | .str => "str"
  | .unicode => "unicode"
  | .bytes => "bytes"
  | .list => "list"
  | .tuple => "tuple"
  | .dict => "dict"
  | .set => "set"
  | .function => "function"
  | .builtinFunction => "builtin_function"
  | .module => "module"
  | .ellipsis => "ellipsis"
  | .listIterator => "list_iterator"
  | .callableIterator => "callable_iterator"

/-- The identifier with the given label. -/
def ofLabel? (text : String) : Option TypeId := all.find? fun id => id.label = text

/-- Strings and byte strings yield pieces of text when nothing better is known. -/
def isText : TypeId → Bool
  | .str | .unicode | .bytes => true
  | _ => false

end TypeId

end Typeflow
