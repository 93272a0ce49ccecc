import Typeflow.ModuleName
import Typeflow.Session.Evaluate

/-! Runs of statements: what they define, assign, return and import. Every branch of a statement is
run, since values are gathered over all ways through a program. -/
namespace Typeflow.Session

/-- Assigns values to a name in the scope of a unit. -/
def bindName (u : UnitId) (node : Node) (name : String) (values : ValueSet) : Analysis Unit := do
  let x ← nameIn ((← get).unit u).scope name
  bindAt x ((← get).placeOf u node) values

/-- The name of a definition in its module: the class comes first when the scope is that of a class. -/
def qualifiedName (s : Session) (u : UnitId) (name : String) : String :=
  let scope := s.scope (s.unit u).scope
  match scope.kind, scope.owner with
  | .class_, some owner => (s.value owner).name ++ "." ++ name
  | _, _ => name

def paramText (p : String × ParamKind) : String :=
  match p.2 with
  | .plain => p.1
  | .rest => "*" ++ p.1
  | .namedRest => "**" ++ p.1

def signatureText (name : String) (params : List (String × ParamKind)) : String :=
  "def " ++ name ++ "(" ++ ", ".intercalate (params.map paramText) ++ ")"

/-- Lets a module keep track of a definition of its tree. -/
def trackDefinition (entry : Option EntryId) (v : ValueId) : Analysis Unit :=
  match entry with
  | none => pure ()
  | some e => updateEntry e fun entry => { entry with definitions := entry.definitions ++ [v] }

/-- Makes a function. Its parameters are assigned where it is defined, so that they are always found. -/
def newFunction (u : UnitId) (body : Body) (name : String) (params : List (String × ParamKind)) :
    Analysis ValueId := do
  let s ← get
  let outer := (s.unit u).scope
  let entry := (s.unit u).entry
  let limits := s.options.limits
  let isMethod := decide ((s.scope outer).kind = .class_)
  let scope ← newScope
    { kind := .function, outer, owner := some ⟨s.values.size⟩, cap := limits.variableTypes }
  let returns ← newVariable limits.returnTypes
  params.forM fun p => do addAssignment (← nameIn scope p.1) (s.placeOf u body.node)
  let v ← newValue name (signatureText name params) (if isMethod then .method else .function)
    (.function { entry, body, params, scope, returns })
  trackDefinition entry v
  return v

/-- Makes a class. -/
def newClass (u : UnitId) (body : Body) (name : String) : Analysis ValueId := do
  let s ← get
  let entry := (s.unit u).entry
  let scope ← newScope
    { kind := .class_, outer := (s.unit u).scope, owner := some ⟨s.values.size⟩,
      cap := s.options.limits.variableTypes }
  let bases ← newVariable 0
  let v ← newValue name ("class " ++ name) .class_ (.userClass { entry, body, scope, bases })
  trackDefinition entry v
  return v

/-- The wrapper of a function whose calls a module replaces, made when there is none. -/
def functionWrapper (v module : ValueId) (qualified : String) : Analysis ValueSet := do
  return .single (← keptOr v .wrapper (newWrapper (some v) qualified (.table module)))

/-- A value made for the node of a definition. -/
structure Definition where
  value : ValueId
  /-- Whether it was made just now. -/
  created : Bool

/-- The value of a definition of a kind, made once for its node. -/
def definitionAt (u : UnitId) (node : Node) (kind : ValueKind) (make : Analysis ValueId) :
    Analysis (Option Definition) := do
  let (values, made) ← nodeValueAnd ((← get).unit u).scope node.id do
    return (.single (← make), ())
  let s ← get
  return (values.items.find? fun v => (s.value v).kind = kind).map (⟨·, made.isSome⟩)

/-- What the name of a function is bound to, and whether its body is to be run: its module may replace
the calls of the function. -/
def functionBinding (u : UnitId) (v : ValueId) (name : String) : Analysis (ValueSet × Bool) := do
  let s ← get
  let qualified := s.qualifiedName u name
  match (s.unit u).entry with
  | none => return (.single v, true)
  | some e =>
    let module := (s.entry e).module
    match s.specialization? module qualified with
    | none => return (.single v, true)
    | some specialization => return (← functionWrapper v module qualified, specialization.analyze)

/-- Joins the default of a parameter to it. -/
def addDefault (u : UnitId) (v : ValueId) (param : Param) : Analysis Unit := do
  match param.default with
  | .missing => pure ()
  | default =>
    let values ← evaluate u default
    match (← get).form v with
    | .function f => let _ ← addToParam f param.name values
    | _ => pure ()

def walkFunction (u : UnitId) (body : Body) (name : String) (params : List Param)
    (decorators : List Expr) : Analysis Unit := do
  match ← definitionAt u body.node .function
      (newFunction u body name (params.map fun p => (p.name, p.kind))) with
  | none => pure ()
  | some made =>
    params.forM (addDefault u made.value)
    let _ ← evaluateAll u decorators
    let (bound, runBody) ← functionBinding u made.value name
    bindName u body.node name bound
    if made.created && runBody then enqueueBody made.value .front

/-- Joins the values of an expression to the bases of a class. -/
def addBase (u : UnitId) (v : ValueId) (base : Expr) : Analysis Unit := do
  let values ← evaluate u base
  match (← get).form v with
  | .userClass c => let _ ← addTypes c.bases values
  | _ => pure ()

def walkClass (u : UnitId) (body : Body) (name : String) (bases : List Expr) : Analysis Unit := do
  match ← definitionAt u body.node .userClass (newClass u body name) with
  | none => pure ()
  | some made =>
    bases.forM (addBase u made.value)
    bindName u body.node name (.single made.value)
    if made.created then enqueueBody made.value .front

/-- The function that a unit is the body of. -/
def functionOf? (s : Session) (u : UnitId) : Option UserFunction := do
  let scope := s.scope (s.unit u).scope
  match scope.kind, s.form (← scope.owner) with
  | .function, .function f => some f
  | _, _ => none

/-- Adds to what a function returns; a return outside a function means nothing. -/
def walkReturn (u : UnitId) (value : Expr) : Analysis Unit := do
  match (← get).functionOf? u with
  | none => pure ()
  | some f =>
    let values ←
      match value with
      | .missing => constantSet .none
      | value => evaluate u value
    let _ ← addTypes f.returns values

mutual

/-- Assigns values to a target at a statement. -/
def assignTo (u : UnitId) (statement : Node) (values : ValueSet) : Expr → Analysis Unit
  | .name mark id => bindName u (mark.node .name) id values
  | .attribute _ value attr => do
    let targets ← evaluate u value
    targets.items.forM fun v => setMember v attr values ⟨statement, u⟩
  | .subscript _ value slice => do
    let _ ← evaluate u slice
    let targets ← evaluate u value
    targets.items.forM fun v => setIndex v values
  | .tuple mark elements => do
    assignEach u statement (← answer.all values .elements ⟨mark.node .tupleLiteral, u⟩) elements
  | .list mark elements => do
    assignEach u statement (← answer.all values .elements ⟨mark.node .listLiteral, u⟩) elements
  | .missing | .call .. | .literal .. => pure ()

/-- Assigns the same values to several targets. -/
def assignEach (u : UnitId) (statement : Node) (values : ValueSet) : List Expr → Analysis Unit
  | [] => pure ()
  | target :: rest => do
    assignTo u statement values target
    assignEach u statement values rest

end

/-- The name without its last part; a name of one part becomes empty. -/
def parentName (name : String) : String := ((Text.lastDot name).map (·.1)).getD ""

def parentNames : Nat → String → String
  | 0, name => name
  | n + 1, name => parentNames n (parentName name)

/-- A package file is named like the package marker. -/
def isPackage (entry : Entry) : Bool := Text.fileName entry.path = packageMarker

/-- Joins a package and a module below it; either may be empty. -/
def joinNames (package module : String) : String :=
  if module.isEmpty then package
  else if package.isEmpty then module
  else package ++ "." ++ module

/-- The name that a relative import starts from. One level means the package of the importing module,
and each further one the package around it. -/
def relativeBase (s : Session) (u : UnitId) (module : String) (level : Int) : String :=
  match (s.unit u).entry with
  | none => module
  | some e =>
    let entry := s.entry e
    let package := if isPackage entry then entry.name else parentName entry.name
    joinNames (parentNames (level - 1).toNat package) module

/-- `import a.b` binds `a`; with another name given, that name is bound to what `a.b` means. -/
def importAlias (u : UnitId) (node : Node) (name : Alias) : Analysis Unit := do
  let found ← resolveModule name.name u
  if !name.asName.isEmpty then bindName u node name.asName (.single found)
  else
    let top := (Text.dotted name.name).headD ""
    let bound ← if top = name.name then pure found else resolveModule top u
    bindName u node top (.single bound)

/-- Names that a star import leaves out begin with an underscore or are empty. -/
def isHidden (name : String) : Bool := name.isEmpty || name.toList.head? = some '_'

/-- Binds every name of a module that is not hidden. -/
def importStar (u : UnitId) (node : Node) (module : Found) : Analysis Unit := do
  match module with
  | none => pure ()
  | some m =>
    let names := (← allMembers m).names.filter fun name => !isHidden name
    names.forM fun name => do bindName u node name (← answer m (.member name) ⟨node, u⟩)

/-- Binds a member of a module, or a module below it when there is no such member. -/
def importMember (u : UnitId) (node : Node) (base : String) (module : Found) (name : Alias) :
    Analysis Unit := do
  let member ←
    match module with
    | none => pure .empty
    | some m => answer m (.member name.name) ⟨node, u⟩
  let values ←
    if member.isEmpty then
      pure (.single (← resolveModule (if base.isEmpty then name.name else base ++ "." ++ name.name) u))
    else pure member
  bindName u node (if name.asName.isEmpty then name.name else name.asName) values

def walkImportFrom (u : UnitId) (node : Node) (module : String) (level : Int) (names : List Alias) :
    Analysis Unit := do
  let s ← get
  let base := if 0 < level then s.relativeBase u module level else module
  let found ← resolveModule base u
  names.forM fun name => do
    if name.name = "*" then importStar u node found else importMember u node base found name

mutual

/-- Runs a statement in a unit. -/
def walk (u : UnitId) : Stmt → Analysis Unit
  | .missing | .pass _ => pure ()
  | .functionDef mark name params body decorators =>
    walkFunction u ⟨mark.node .functionDef, body⟩ name params decorators
  | .classDef mark name bases body => walkClass u ⟨mark.node .classDef, body⟩ name bases
  | .ret _ value => walkReturn u value
  | .assign mark targets value => do
    assignEach u (mark.node .assignStmt) (← evaluate u value) targets
  | .expr _ value => do let _ ← evaluate u value
  | .branch _ cond thenBody elseBody | .loop _ cond thenBody elseBody => do
    let _ ← evaluate u cond
    walkAll u thenBody
    walkAll u elseBody
  | .each mark target iterable thenBody elseBody => do
    let node := mark.node .forStmt
    let values ← evaluate u iterable
    assignTo u node (← answer.all values .elements ⟨node, u⟩) target
    walkAll u thenBody
    walkAll u elseBody
  | .importNames mark names => names.forM (importAlias u (mark.node .importNames))
  | .importFrom mark module level names => walkImportFrom u (mark.node .importFrom) module level names

def walkAll (u : UnitId) : List Stmt → Analysis Unit
  | [] => pure ()
  | statement :: rest => do
    walk u statement
    walkAll u rest

end

/-- Runs the body of a unit. -/
def runBody (u : UnitId) : Analysis Unit := do walkAll u ((← get).unit u).body.statements

end Typeflow.Session
