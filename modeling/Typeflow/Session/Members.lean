import Typeflow.Session.Question

/-! Members: what a name means on a value, and all names that a value has. -/
namespace Typeflow.Session

/-- The wrapper of a replaced member of a builtin class or module, made when it is first read. -/
def memberWrapper (v : ValueId) (name qualified : String) (wrapped : Found) (table : ValueId) :
    Analysis ValueSet := do
  return .single (← keptOr v (.member name) (newWrapper wrapped qualified (.table table)))

/-- A member of a host type; a replaced one comes wrapped. -/
def typeMember (cls : ValueId) (type : ObjectId) (name : String) : Analysis ValueSet := do
  match (← get).host.member? type name with
  | none => return .empty
  | some member =>
    let found ← valueOf (some member)
    let s ← get
    match s.loadedModule? (s.host.moduleOf type) with
    | none => return .single found
    | some table =>
      let qualified := s.host.nameOf type ++ "." ++ name
      if (s.specialization? table qualified).isSome then
        memberWrapper cls name qualified found table
      else return .single found

/-- The member that makes instances of the root class. -/
def rootConstructor (cls : ValueId) (type : ObjectId) : Analysis ValueSet := do
  return .single (← keptOr cls .constructor do
    let found ← typeMember cls type "__new__"
    let wrapped ← aggregate (found.items.map some)
    newWrapper wrapped "object.__new__" (.fixed ⟨.newInstance, false⟩))

def builtinClassMember (cls : ValueId) (type : ObjectId) (name : String) : Analysis ValueSet := do
  if (← get).host.typeId type = .object && name = "__new__" then rootConstructor cls type
  else typeMember cls type name

/-- A member of a host module; a replaced one comes wrapped. -/
def moduleMember (m : ValueId) (object : ObjectId) (name : String) : Analysis ValueSet := do
  match (← get).host.member? object name with
  | none => return .empty
  | some member =>
    let found ← valueOf (some member)
    if ((← get).specialization? m name).isSome then memberWrapper m name name found m
    else return .single found

/-- What an instance of a builtin class makes of a member of its class: properties yield their values. -/
def throughProperty (v : ValueId) : Analysis ValueSet := do
  match (← get).form v with
  | .builtinProperty object => propertyValue object
  | _ => return .single v

/-- What an instance makes of a member of its class: functions bind to it as well. -/
def throughInstance (self v : ValueId) : Analysis ValueSet := do
  if (← get).bindsToInstance v then return .single (← boundMethod v self)
  throughProperty v

/-- The member of a sequence that changes its elements. -/
def mutatorOf (v : ValueId) (name : String) : Option Override :=
  if name = "append" || name = "insert" then some (.append v)
  else if name = "extend" then some (.extend v)
  else none

/-- The mutator that a sequence keeps, made when there is none. -/
def sequenceMutator (v : ValueId) (name : String) (override : Override) (generic : ValueSet) :
    Analysis ValueSet := do
  return .single (← keptOr v (.mutator name) do
    let wrapped ← aggregate (generic.items.map some)
    newWrapper wrapped name (.fixed ⟨override, false⟩))

/-- Whether the type of a sequence is that of lists. -/
def isList (s : Session) (type : Found) : Bool :=
  match type with
  | none => false
  | some cls =>
    match s.form cls with
    | .builtinClass type => s.host.typeId type = .list
    | _ => false

/-- A member of the instance of a type that may be absent. -/
def exemplarMember (ask : Ask) (type : Found) (name : String) (site : Site) : Analysis ValueSet := do
  match ← exemplarOf type with
  | none => return .empty
  | some v => ask v (.member name) site

def sequenceMember (ask : Ask) (v : ValueId) (type : Found) (name : String) (site : Site) :
    Analysis ValueSet := do
  let generic ← exemplarMember ask type name site
  match mutatorOf v name with
  | some override => if (← get).isList type then sequenceMutator v name override generic else return generic
  | none => return generic

def iteratorMember (ask : Ask) (v : ValueId) (type : Found) (name : String) (site : Site) :
    Analysis ValueSet := do
  let generic ← exemplarMember ask type name site
  if name ≠ (← get).nextMethod then return generic
  return .single (← keptOr v .next do
    let wrapped ← aggregate (generic.items.map some)
    newWrapper wrapped name (.fixed ⟨.nextElement v, false⟩))

/-- Marks whether a search through the bases of a class is under way. -/
def setResolving (cls : ValueId) (on : Bool) : Analysis Unit := do
  match (← get).form cls with
  | .userClass c => setForm cls (.userClass { c with resolving := on })
  | _ => pure ()

/-- Runs a search through the bases of a class under its mark, which goes away in any case. -/
def whileResolving {α : Type} (cls : ValueId) (search : Analysis α) : Analysis α := do
  setResolving cls true
  try search finally setResolving cls false

def isResolving (s : Session) (cls : ValueId) : Bool :=
  match s.form cls with
  | .userClass c => c.resolving
  | _ => false

/-- A member of a class of the program: its own name, or else that of its bases. -/
def userClassMember (ask : Ask) (cls : ValueId) (c : UserClass) (name : String) (site : Site) :
    Analysis ValueSet := do
  let own ← readAt (← nameIn c.scope name) site
  if !own.isEmpty then return own
  let bases ← readAt c.bases site
  if (← get).isResolving cls then return .empty
  whileResolving cls (ask.all bases (.member name) site)

/-- A member of an instance: its attribute, together with what its class has under the name. -/
def userInstanceMember (ask : Ask) (v cls : ValueId) (name : String) (site : Site) :
    Analysis ValueSet := do
  let own ←
    match ← attributeOf v name with
    | some x => readAt x site
    | none => pure .empty
  let fromClass ← ask cls (.member name) site
  return own.join (← ValueSet.joinM fromClass.items (throughInstance v))

/-- What a `super` value makes of a member found in a base: functions bind to its instances. -/
def throughSuper (instances : ValueSet) (v : ValueId) : Analysis ValueSet := do
  if !(← get).bindsToInstance v then return .single v
  ValueSet.joinM instances.items fun self => return .single (← boundMethod v self)

def superMember (ask : Ask) (cls : ValueId) (instances : ValueSet) (name : String) (site : Site) :
    Analysis ValueSet := do
  match (← get).form cls with
  | .userClass c =>
    let bases ← readAt c.bases site
    ValueSet.joinM bases.items fun base => do
      ValueSet.joinM (← ask base (.member name) site).items (throughSuper instances)
  | _ => return .empty

/-- A member of a module of the project: the values of its name, or a module below it. -/
def projectMember (m : ValueId) (p : ProjectModule) (name : String) (site : Site) :
    Analysis ValueSet := do
  let x ← nameIn p.scope name
  addReader x site.unit
  let record := (← get).var x
  if record.isBound then return record.types
  return .single (← childModule m name)

/-- The rule for members. -/
def memberOf (ask : Ask) (v : ValueId) (name : String) (site : Site) : Analysis ValueSet := do
  match (← get).form v with
  | .builtinClass type => builtinClassMember v type name
  | .builtinInstance cls =>
    ValueSet.joinM (← ask cls (.member name) site).items throughProperty
  | .builtinModule object =>
    let found ← moduleMember v object name
    if found.isEmpty then return .single (← childModule v name)
    return found
  | .constant type _ => exemplarMember ask type name site
  | .reflected object =>
    match (← get).host.member? object name with
    | none => return .empty
    | some member => return .single (← valueOf (some member))
  | .multiple members => ValueSet.joinM members fun member => ask member (.member name) site
  | .module p => projectMember v p name site
  | .userClass c => userClassMember ask v c name site
  | .userInstance cls _ => userInstanceMember ask v cls name site
  | .function _ =>
    if name = "__name__" then constantSet (.str ((← get).value v).name) else return .empty
  | .sequence type _ => sequenceMember ask v type name site
  | .iterator type _ => iteratorMember ask v type name site
  | .super cls instances => superMember ask cls instances name site
  | .wrapper w =>
    match w.wrapped with
    | none => return .empty
    | some wrapped => ask wrapped (.member name) site
  | .builtinFunction _ | .builtinMethod _ | .builtinProperty _ | .boundMethod .. => return .empty

/-- Joins the members of several values. -/
def joinMembers (all more : NameMap ValueSet) : NameMap ValueSet :=
  more.toList.foldl
    (fun all pair => all.insert pair.1 ((all.findD pair.1 .empty).join pair.2)) all

/-- The names of a scope that have types, with them. -/
def typedNames (s : Session) (names : NameMap VarId) : NameMap ValueSet :=
  names.filterMap fun _ x => if (s.types x).isEmpty then none else some (s.types x)

/-- All members of a value without a dependence on them. `depth` bounds how far values refer to one
another. -/
def allMembersWithin : Nat → ValueId → Analysis (NameMap ValueSet)
  | 0, _ => throw .endless
  | depth + 1, v => do
    let value := (← get).value v
    match value.form with
    | .builtinClass type => objectMembers type
    | .builtinInstance cls => allMembersWithin depth cls
    | .builtinModule object =>
      let names := ((← get).host.members object).names
      let found ← names.mapM fun name => return (name, ← moduleMember v object name)
      return ⟨found⟩
    | .reflected object => objectMembers object
    | .multiple members =>
      return (← members.mapM (allMembersWithin depth)).foldl joinMembers {}
    | .module p =>
      let s ← get
      return (s.scope p.scope).names.filterMap fun _ x =>
        if (s.var x).isBound then some (s.types x) else none
    | .userClass c =>
      let inherited ←
        if (← get).isResolving v then pure []
        else whileResolving v (((← get).types c.bases).items.mapM (allMembersWithin depth))
      let own := (← get).typedNames ((← get).scope c.scope).names
      return own.toList.foldl (fun all pair => all.insert pair.1 pair.2) (inherited.foldl joinMembers {})
    | .userInstance cls _ =>
      let inherited ← allMembersWithin depth cls
      match (← get).form v with
      | .userInstance _ attributes => return joinMembers inherited ((← get).typedNames attributes)
      | _ => return inherited
    | .sequence (some other) _ | .wrapper { wrapped := some other, .. } =>
      allMembersWithin depth other
    | _ => return {}

/-- More than the values can refer to one another on the way to their members: a class is entered once
at a time, and between two classes each value refers to an older one. -/
def memberDepth (s : Session) : Nat := (s.values.size + 1) * (s.values.size + 1)

def allMembers (v : ValueId) : Analysis (NameMap ValueSet) := do
  allMembersWithin (← get).memberDepth v

end Typeflow.Session
