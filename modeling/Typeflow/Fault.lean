import Typeflow.Host

/-! Why an operation on a session stops. -/
namespace Typeflow

inductive Fault where
  /-- A module was to be removed and none was given. -/
  | noModule
  /-- A resource was to be removed and none was given. -/
  | noResource
  /-- The type that a function returns was named without its module. -/
  | returnTypeWithoutModule (text : String)
  /-- The host has an object that it claims to be what it is not. -/
  | unclassifiable (declared : HostKind)
  /-- A question leads back to itself without end. -/
  | endless
  deriving DecidableEq, Repr

namespace Fault

def unclassifiableText (declared : HostKind) : String :=
  "unclassifiable host object (declared kind " ++ declared.label ++ ")"

def message : Fault → String
  | .noModule => "removeModule: entry is null"
  | .noResource => "removeResourceFile: entry is null"
  | .returnTypeWithoutModule text =>
    "expected module.typename for return type, got '" ++ text ++ "'"
  | .unclassifiable declared => unclassifiableText declared
  | .endless => "the evaluation does not end"

end Fault

end Typeflow
