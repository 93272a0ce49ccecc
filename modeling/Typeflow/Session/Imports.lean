import Typeflow.Session.Modules

/-! Dotted names resolved through the table of modules and through the objects of the host. -/
namespace Typeflow.Session

/-- Follows names from an object through modules, types and containers. At an ambiguous binding every
alternative is followed. `depth` bounds the steps. -/
def fromMemberWithin : Nat → Option ObjectId → List String → Analysis Found
  | _, none, _ => return none
  | 0, some _, _ => throw .endless
  | _ + 1, some object, [] => valueOf (some object)
  | depth + 1, some object, name :: rest => do
    let host := (← get).host
    match host.classify object with
    | .module | .type | .memberContainer => fromMemberWithin depth (host.member? object name) rest
    | .multipleMembers =>
      aggregate (← (host.alternatives object).mapM fun other => fromMemberWithin depth other (name :: rest))
    | _ => return none

/-- Enough steps for every acyclic host. -/
def pathDepth (s : Session) (names : List String) : Nat := (names.length + 1) * (s.objectDepth + 1)

/-- The value that a path leads to from an object. -/
def fromMember (object : Option ObjectId) (names : List String) : Analysis Found := do
  fromMemberWithin ((← get).pathDepth names) object names

/-- The value that a path leads to from a host module. -/
def fromHostModule (object : Option ObjectId) (names : List String) : Analysis Found := do
  match object, names with
  | none, _ => return none
  | some object, [] => moduleOfObject object
  | some object, name :: rest => fromMember ((← get).host.member? object name) rest

/-- The value that a path leads to from an ambiguous binding. -/
def fromAlternatives (object : ObjectId) (names : List String) : Analysis Found := do
  aggregate (← ((← get).host.alternatives object).mapM fun other => fromMember other names)

/-- The value that a path leads to from a module: through its children, and from a builtin module
without such a child through its members. -/
def fromModule : Found → List String → Analysis Found
  | none, _ => return none
  | some m, [] => return some m
  | some m, name :: rest => do
    let value := (← get).value m
    if !value.isModule then return none
    match ← childModule m name, value.form with
    | none, .builtinModule object => fromHostModule (some object) (name :: rest)
    | child, _ => fromModule child rest

/-- The module of the first part of a dotted name, from the table or straight from the host. -/
def topModule (name : String) : Analysis Found := do
  match ← moduleNamed name with
  | some m => return some m
  | none =>
    match ← importObject name with
    | none => return none
    | some object => moduleOfObject object

/-- Resolves a dotted name of the host. `bottom` asks for what the whole name means; otherwise it is
the first module, provided that the rest resolves. A name that begins with a dot means nothing. -/
def importDotted (name : String) (bottom : Bool) : Analysis Found := do
  match Text.dotted name with
  | [] => return none
  | first :: rest =>
    if first.isEmpty then return none
    match ← topModule first, rest with
    | none, _ => return none
    | some top, [] => return some top
    | some top, rest =>
      let last ← fromModule (some top) rest
      return if bottom then last else if last.isSome then some top else none

/-- A dotted name as an import statement means it. A name that cannot be resolved is watched. -/
def resolveModule (name : String) (u : UnitId) : Analysis Found := do
  if name.isEmpty then return none
  match ← moduleNamed name with
  | some m => return some m
  | none =>
    match ← importDotted name true with
    | some m => return some m
    | none =>
      watch name u
      return none

end Typeflow.Session
