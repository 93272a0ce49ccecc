import Typeflow.Session.Members

/-! Calls of the functions of a program: arguments are joined into the parameters, and a change queues
the body. -/
namespace Typeflow.Session

/-- The record of a parameter. -/
def paramRecord (s : Session) (f : UserFunction) (name : String) : Option VarId :=
  s.findName? f.scope name

/-- The parameters that take one argument each, in order. -/
def plainParams (f : UserFunction) : List String :=
  f.params.filterMap fun p => if p.2 = .plain then some p.1 else none

/-- The name of the last parameter of a kind. -/
def lastParam (f : UserFunction) (kind : ParamKind) : Option String :=
  (f.params.filterMap fun p => if p.2 = kind then some p.1 else none).getLast?

/-- The tuple of the left-over positional arguments of a function, made when there is none. -/
def restTuple (v : ValueId) : Analysis ValueId :=
  keptOr v .rest do newSequence (← knownType .tuple)

/-- Adds values to a parameter, if the function has it, and tells whether they changed it. -/
def addToParam (f : UserFunction) (name : String) (values : ValueSet) : Analysis Bool := do
  match (← get).paramRecord f name with
  | none => return false
  | some x => addTypes x values

/-- Adds values to the left-over positional arguments. -/
def addToRest (v : ValueId) (values : ValueSet) : Analysis Bool := do
  let tuple ← restTuple v
  match (← get).form tuple with
  | .sequence _ elements => addTypes elements values
  | _ => return false

/-- Gives the starred parameters their tuple and dictionary. -/
def bindStarred (v : ValueId) (f : UserFunction) : Analysis Bool := do
  let first ←
    match lastParam f .rest with
    | none => pure false
    | some name => addTypes (← nameIn f.scope name) (.single (← restTuple v))
  let second ←
    match lastParam f .namedRest with
    | none => pure false
    | some name => addTypes (← nameIn f.scope name) (← knownInstance .dict)
  return first || second

/-- Binds arguments from the left. Positional ones fill the plain parameters in order and then the
starred one; a named one goes to the parameter of its name; one that fits nowhere is dropped. -/
def bindEach (v : ValueId) (f : UserFunction) (changed : Bool) (free : List String) :
    List (ValueSet × String) → Analysis Bool
  | [] => return changed
  | (values, name) :: rest => do
    if name.isEmpty then
      match free with
      | param :: free => bindEach v f ((← addToParam f param values) || changed) free rest
      | [] =>
        if (lastParam f .rest).isSome then bindEach v f ((← addToRest v values) || changed) [] rest
        else bindEach v f changed [] rest
    else if (plainParams f).contains name then
      bindEach v f ((← addToParam f name values) || changed) free rest
    else bindEach v f changed free rest

/-- Pairs each argument with its name; a name that is not given is empty. -/
def pairArgs (args : List ValueSet) (names : List String) : List (ValueSet × String) :=
  args.zipIdx.map fun arg => (arg.1, names.getD arg.2 "")

/-- Binds the arguments of a call and tells whether that changed any parameter. -/
def bindArguments (v : ValueId) (f : UserFunction) (args : List ValueSet) (names : List String) :
    Analysis Bool := do
  let starred ← bindStarred v f
  bindEach v f starred (plainParams f) (pairArgs args names)

/-- The unit of a class or function; it is made when first needed, and gone when its tree is. -/
def unitOf (v : ValueId) : Analysis (Option UnitId) := do
  match ((← get).form v).code? with
  | some { body := some _, unit := some u, .. } => return some u
  | some { body := some body, entry, scope, .. } =>
    let u ← newUnit entry scope body
    updateCode v fun code => { code with unit := some u }
    return some u
  | _ => return none

/-- Queues the body of a class or function, if it still has one. -/
def enqueueBody (v : ValueId) (place : QueueEnd) : Analysis Unit := do
  if let some u ← unitOf v then enqueue u place

/-- Calls a function of the program: what it returns, on which the caller depends from then on. -/
def callFunction (v : ValueId) (f : UserFunction) (args : List ValueSet) (names : List String)
    (site : Site) : Analysis ValueSet := do
  if ← bindArguments v f args names then enqueueBody v .back
  readAt f.returns site

/-- Calls a list or tuple type: one sequence for each call, with the elements of the first argument. -/
def callSequenceType (ask : Ask) (cls : ValueId) (args : List ValueSet) (site : Site) :
    Analysis ValueSet := do
  let made ← siteValue site do return .single (← newSequence (some cls))
  if let first :: _ := args then
    addToSequences made (← ask.all first .elements site)
  return made

/-- The instances of all that a function of the host returns. -/
def returnedInstances (function : Option ObjectId) : Analysis ValueSet := do
  match function with
  | none => return .empty
  | some object => ValueSet.joinM ((← get).host.returnsOf object) fun type => instancesOfType (some type)

/-- Puts the instance in front of the arguments of a method. -/
def methodNames (args : List ValueSet) (names : List String) : List String :=
  "" :: (names.take args.length ++ List.replicate (args.length - names.length) "")

/-- Calls a class of the program: its instance, after a call of the initializer. -/
def callClass (ask : Ask) (cls : ValueId) (args : List ValueSet) (names : List String) (site : Site) :
    Analysis ValueSet := do
  match ← userInstance cls with
  | none => return .empty
  | some self =>
    let _ ← ask.callMember self "__init__" args names site
    return .single (some self)

end Typeflow.Session
