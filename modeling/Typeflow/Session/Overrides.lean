import Typeflow.Session.Calls
import Typeflow.Session.Iteration
import Typeflow.Text.Path

/-! What the replacements of calls yield. No result means no opinion. -/
namespace Typeflow.Session

/-- The arguments of a call with their names. -/
structure Arguments where
  sets : List ValueSet
  names : List String

def Arguments.get (a : Arguments) (i : Nat) : ValueSet := a.sets.getD i .empty

/-- A list of whole numbers, one for each call. -/
def rangeAt (site : Site) : Analysis ValueSet :=
  siteValue site do
    let list ← newSequence (← knownType .list)
    addToSequences (.single list) (← knownInstance .int)
    return .single list

/-- The members of the values under every name that is known as text, joined to a default. -/
def getattrAt (ask : Ask) (a : Arguments) (site : Site) : Analysis ValueSet := do
  match a.sets with
  | values :: names :: more =>
    let start := (more.head?).getD .empty
    let found ← ValueSet.joinM values.items fun v =>
      ValueSet.joinM names.items fun name => do
        match ((← get).value name).text? with
        | some text => ask v (.member text) site
        | none => return .empty
    return start.join found
  | _ => return .empty

/-- Calls the method of the first argument that yields the next element. -/
def nextAt (ask : Ask) (a : Arguments) (site : Site) : Analysis ValueSet := do
  match a.sets with
  | [] => return .empty
  | first :: rest =>
    let method ← ask.all first (.member (← get).nextMethod) site
    ask.callAll method rest (a.names.drop 1) site

/-- The iterators of one argument. With two, an iterator over the results of calling the first; the
second never comes out of it. -/
def iterAt (ask : Ask) (a : Arguments) (site : Site) : Analysis ValueSet := do
  match a.sets with
  | [values] => ask.all values .iterator site
  | [function, _] =>
    let made ← siteValue site do
      return .single (← newIterator (← knownType .callableIterator) none)
    addToIterators made (← ask.callAll function [] [] site)
    return made
  | _ => return .empty

/-- Classes and the instances that methods found in their bases are bound to. -/
structure SuperArguments where
  classes : ValueSet := .empty
  instances : ValueSet := .empty

/-- The class and function around a scope when the scope is that of a method. -/
def methodScope? (s : Session) (scope : ScopeId) : Option (Found × Found) := do
  let c := s.scope scope
  let outer := s.scope (← c.outer)
  if c.kind = .function && outer.kind = .class_ then some (outer.owner, c.owner) else none

/-- The arguments that a `super` without any has: the class of the nearest method around, and its
instance when the method has parameters. -/
def implicitSuper (site : Site) : Analysis SuperArguments := do
  let s ← get
  match (s.enclosing (s.scopeAt site)).findSome? s.methodScope? with
  | some (some cls, some function) =>
    match s.form cls, s.form function with
    | .userClass _, .function f =>
      if f.params.isEmpty then return { classes := .single cls }
      return { classes := .single cls, instances := ← instancesOf cls }
    | _, _ => return {}
  | _ => return {}

/-- The classes of the program in a set. -/
def userClasses (s : Session) (values : ValueSet) : List ValueId :=
  values.items.filter fun v => (s.value v).kind = .userClass

/-- A value that looks members up in the bases of a class. -/
def newSuper (cls : ValueId) (instances : ValueSet) : Analysis ValueId :=
  newValue "super" "super" .instance_ (.super cls instances)

def superAt (a : Arguments) (site : Site) : Analysis ValueSet := do
  let given ←
    match a.sets with
    | [] => if (← get).isV3 then implicitSuper site else pure {}
    | [classes] => pure { classes }
    | [classes, instances] => pure { classes, instances }
    | _ => pure {}
  let classes := (← get).userClasses given.classes
  if classes.isEmpty then return .empty
  siteValue site do
    ValueSet.joinM classes fun cls => return .single (← newSuper cls given.instances)

/-- The first resource that the texts of a set name, taken relative to a directory. -/
def resourceNamed? (s : Session) (dir : String) (texts : ValueSet) : Option ResourceId :=
  texts.items.findSome? fun v => do
    s.resourcesByPath.find? (Text.joinPath dir (← (s.value v).text?))

/-- Sets one object that a resource declares on every value. -/
def setDeclared (self : ValueSet) (name : String) (type : Option ObjectId) (site : Site) :
    Analysis Unit := do
  match ← classOf? type with
  | none => pure ()
  | some cls => self.items.forM fun v => do setMember v name (← instancesOf cls) site

/-- Sets the objects of a resource file, found beside the file of the calling module, on the first
argument. The module depends on the resource from then on. -/
def loadComponentAt (a : Arguments) (site : Site) : Analysis (Option ValueSet) := do
  let s ← get
  match a.sets, (s.unit site.unit).entry with
  | [self, path], some e =>
    match s.resourceNamed? (Text.parentPath (s.entry e).path) path with
    | none => return none
    | some r =>
      updateResource r fun resource =>
        { resource with dependents := Variable.addOnce e resource.dependents }
      (s.resource r).objects.toList.forM fun pair => setDeclared self pair.1 pair.2 site
      return some self
  | _, _ => return none

/-- The instances of a type that is looked up in a module; a member that is no class stands for itself. -/
def namedInstances (ask : Ask) (module type : String) (site : Site) : Analysis (Option ValueSet) := do
  match ← moduleNamed module with
  | none => return none
  | some m =>
    let found ← ask m (.member type) site
    return some (← ValueSet.joinM found.items fun v => do
      let instances ← instancesOf v
      return if instances.isEmpty then .single v else instances)

/-- What a caller's replacement yields. -/
def recipeAt (ask : Ask) (a : Arguments) (site : Site) : Recipe → Analysis (Option ValueSet)
  | .noOpinion => return none
  | .constants values => return some (← ValueSet.joinM values constantSet)
  | .instanceOf id => return some (← knownInstance id)
  | .argument i => return some (a.get i)
  | .allArguments => return some (.unionAll a.sets 0)
  | .object object => return some (.single (← valueOf object))
  | .memberOf i name => return some (← ask.all (a.get i) (.member name) site)
  | .callOf i => return some (← ask.callAll (a.get i) [] [] site)

def recordCall (record : CallRecord) : Analysis Unit :=
  modify fun s => { s with calls := s.calls ++ [record] }

/-- Records and runs a caller's replacement. A list of values never stands for `top`. -/
def runRecipe (ask : Ask) (tag : Option String) (recipe : Recipe) (a : Arguments) (site : Site) :
    RecipeForm → Analysis (Option ValueSet)
  | .set => do
    recordCall ⟨tag, site.node, a.sets, a.names⟩
    recipeAt ask a site recipe
  | .values => do
    recordCall ⟨tag, site.node, a.sets, a.names⟩
    return (← recipeAt ask a site recipe).map fun set => .ofList (set.items.map some)
  | .action => do
    recordCall ⟨tag, site.node, [], []⟩
    return none

/-- The rule for replacements. -/
def runOverride (ask : Ask) (a : Arguments) (site : Site) : Override → Analysis (Option ValueSet)
  | .nothing => return some .empty
  | .firstArgument => return some (a.get 0)
  | .unionOfArguments => return some (.unionAll a.sets (← get).options.limits.variableTypes)
  | .instanceOf id => return some (← knownInstance id)
  | .range => return some (← rangeAt site)
  | .getattr => return some (← getattrAt ask a site)
  | .next => return some (← nextAt ask a site)
  | .iter => return some (← iterAt ask a site)
  | .super => return some (← superAt a site)
  | .loadComponent => loadComponentAt a site
  | .append sequence => do
    if let some last := a.sets.getLast? then addToSequences (.single sequence) last
    return some (← constantSet .none)
  | .extend sequence => do
    if let some last := a.sets.getLast? then
      addToSequences (.single sequence) (← ask.all last .elements site)
    return some (← constantSet .none)
  | .nextElement iterator => do
    match (← get).form iterator with
    | .iterator _ elements => return some (← readAt elements site)
    | _ => return some .empty
  | .newInstance => do
    match a.sets with
    | [] => return none
    | classes :: _ => return some (← ValueSet.joinM classes.items instancesOf)
  | .instanceOfMember module type => namedInstances ask module type site
  | .recipe tag form recipe => runRecipe ask tag recipe a site form
  | .transparent => return none

/-- The replacement that a wrapper has at the moment. -/
def currentSpecialization (s : Session) (w : Wrapper) : Option Specialization :=
  match w.source with
  | .fixed specialization => some specialization
  | .table m => s.specialization? m w.qualifiedName

/-- Calls the function behind a wrapper. -/
def callWrapped (ask : Ask) (w : Wrapper) (a : Arguments) (site : Site) : Analysis ValueSet := do
  match w.wrapped with
  | none => return .empty
  | some wrapped => ask wrapped (.call a.sets a.names) site

/-- Calls a wrapper. With `analyze` the function itself runs too, and its result counts when the
replacement has no opinion. -/
def callWrapper (ask : Ask) (w : Wrapper) (a : Arguments) (site : Site) : Analysis ValueSet := do
  match (← get).currentSpecialization w with
  | none | some ⟨.transparent, _⟩ => callWrapped ask w a site
  | some ⟨override, analyze⟩ =>
    count "specialized_calls" 1
    let result ← runOverride ask a site override
    if analyze && w.wrapped.isSome then
      let generic ← callWrapped ask w a site
      return result.getD generic
    return result.getD .empty

end Typeflow.Session
