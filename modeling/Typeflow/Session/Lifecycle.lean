import Typeflow.Session.Schedule
import Typeflow.Session.Standard

/-! The life of a session: making it, loading the host again, and adding, changing and removing modules
and resources. -/
namespace Typeflow.Session

/-- Does what a caller asks for. A type to be returned has to be named with its module. -/
def fulfil : Request → Analysis Unit
  | .replace registration => register registration
  | .returning module name type =>
    match Text.lastDot type with
    | none => throw (.returnTypeWithoutModule type)
    | some (owner, last) => register ((Override.instanceOfMember owner last).beside module name)

/-- Makes the standard registrations and installs everything that is registered once more. -/
def loadStandard : Analysis Unit := do
  (standardRegistrations (← get).options).forM register
  installEvery

/-- Tells the host that the session is ready for what it asks for. -/
def initializeHost : Analysis Unit := do
  modify fun s => { s with host := { s.host with initializations := s.host.initializations + 1 } }
  (← get).hostRequests.forM fulfil

/-- Fills the table of modules and makes all registrations. -/
def load : Analysis Unit := do
  resetModules
  loadStandard
  initializeHost

/-- A new session on a host. -/
def create (options : Options) (host : Host) (hostRequests : List Request) : Except Fault Session :=
  match load.run { options, host, hostRequests, log := { switches := options.log } } with
  | .ok _ s => .ok s
  | .error fault _ => .error fault

/-- Loads the host again. Values of host objects and constants are made anew, and every module of the
project is analysed again. -/
def reload : Analysis Unit := do
  resetModules
  modify fun s =>
    { s with
      objectValues := s.objectValues.clear
      constants := s.constants.clear
      aggregates := s.aggregates.clear
      boundMethods := s.boundMethods.clear }
  loadStandard
  initializeHost
  let s ← get
  let entries := (List.range s.entries.size).map EntryId.mk
  (entries.filter fun e => !(s.entry e).removed).forM fun e => do
    clearModule (s.entry e).module
    enqueueEntry e
  count "reloads" 1
  writeLog .modules ("reloaded " ++ toString (← get).modules.size ++ " module names")

/-- Makes a module of the project with an empty scope. -/
def newEntry (name path : String) : Analysis EntryId := do
  let s ← get
  let e : EntryId := ⟨s.entries.size⟩
  let scope ← newScope
    { owner := some ⟨s.values.size⟩, cap := s.options.limits.variableTypes }
  let module ← newValue name ("module " ++ name) .module (.module ⟨e, scope⟩)
  modify fun s => { s with entries := s.entries.push { name, path, module } }
  return e

/-- Takes the units that wait for a module of the name. -/
def takeWatchers (name : String) : Analysis (List UnitId) :=
  modifyGet fun s => (s.watchers.findD name [], { s with watchers := s.watchers.erase name })

/-- Adds a module under its name and path, either of which may be empty. -/
def addModule (name path : String) : Analysis EntryId := do
  let e ← newEntry name path
  let module := ((← get).entry e).module
  if !path.isEmpty then
    modify fun s => { s with modulesByPath := s.modulesByPath.insert path module }
  if !name.isEmpty then
    setModule name (← newRef { module := some module, loaded := true })
    installFor name
    (← takeWatchers name).forM fun u => enqueue u .back
  count "modules_added" 1
  writeLog .modules ("added " ++ if name.isEmpty then path else name)
  return e

/-- Cuts a class or function off from a tree that goes away. -/
def detach (v : ValueId) : Analysis Unit :=
  updateCode v fun code => { code with body := none, unit := none }

/-- Retires the units of a module and forgets its definitions, which are cut off first if asked. -/
def retireEntry (e : EntryId) (detaching : Bool) : Analysis Unit := do
  let entry := (← get).entry e
  updateEntry e fun entry => { entry with units := [], definitions := [] }
  entry.units.forM retire
  if detaching then entry.definitions.forM detach
  let _ ← releaseRetired

def moduleScopeOf (s : Session) (e : EntryId) : ScopeId :=
  match s.form (s.entry e).module with
  | .module p => p.scope
  | _ => ⟨0⟩

/-- Numbers the nodes of a tree with numbers that no other tree has. -/
def numberTree (tree : Tree) : Analysis Tree :=
  modifyGet fun s =>
    let (tree, next) := tree.number.run s.nextNode
    (tree, { s with nextNode := next })

/-- Replaces the tree of a module. -/
def replaceTree (e : EntryId) (tree : Option Tree) : Analysis Unit := do
  let tree ← tree.mapM numberTree
  updateEntry e fun entry => { entry with tree, unit := none }
  retireEntry e true
  let scope := (← get).moduleScopeOf e
  clearNodeValues scope
  match tree with
  | none => pure ()
  | some tree =>
    let u ← newUnit (some e) scope tree.toBody
    updateEntry e fun entry => { entry with unit := some u }

/-- Takes the path of a module out of the index if it still leads to the module. -/
def forgetPath (path : String) (module : ValueId) : Analysis Unit :=
  modify fun s =>
    if s.modulesByPath.find? path = some module then
      { s with modulesByPath := s.modulesByPath.erase path }
    else s

/-- Takes the name of a module out of the table if it still stands for the module. -/
def forgetName (name : String) (module : ValueId) : Analysis Unit := do
  if name.isEmpty then return
  match (← get).peek? name with
  | none => pure ()
  | some r =>
    if ((← get).ref r).module = some module then
      let _ ← removeName name (some r)
      invalidate r

/-- Removes a module. Removing it again does nothing. -/
def removeModule (entry : Option EntryId) : Analysis Unit := do
  match entry with
  | none => throw .noModule
  | some e =>
    let entry := (← get).entry e
    if entry.removed then return
    forgetPath entry.path entry.module
    forgetName entry.name entry.module
    updateEntry e fun entry => { entry with removed := true, unit := none }
    retireEntry e false
    clearModule entry.module
    count "modules_removed" 1
    writeLog .modules ("removed " ++ entry.name)

/-- The resource of a path, made when there is none. -/
def addResource (path : String) : Analysis ResourceId := do
  match (← get).resourcesByPath.find? path with
  | some r => return r
  | none =>
    modifyGet fun s =>
      let r : ResourceId := ⟨s.resources.size⟩
      (r, { s with
        resources := s.resources.push { path }
        resourcesByPath := s.resourcesByPath.insert path r })

/-- Queues the modules that depend on a resource. -/
def enqueueDependents (dependents : List EntryId) : Analysis Unit := dependents.forM enqueueEntry

/-- Removes a resource. The modules that depend on it are queued, the first time only. -/
def removeResource (resource : Option ResourceId) : Analysis Unit := do
  match resource with
  | none => throw .noResource
  | some r =>
    let path := ((← get).resource r).path
    if (← get).resourcesByPath.find? path = some r then
      modify fun s => { s with resourcesByPath := s.resourcesByPath.erase path }
    let resource := (← get).resource r
    if resource.removed then return
    updateResource r fun resource => { resource with removed := true, dependents := [] }
    enqueueDependents resource.dependents

/-- Sets the objects that a resource declares and queues the modules that depend on it. -/
def setResourceObjects (r : ResourceId) (objects : NameMap (Option ObjectId)) : Analysis Unit := do
  updateResource r fun resource => { resource with objects }
  enqueueDependents ((← get).resource r).dependents

/-- Adds a listener to the set of directories. -/
def listenToDirectories : Analysis Unit :=
  modify fun s => { s with directoryListeners := s.directoryListeners + 1 }

/-- Changes the set of directories; every listener is called when it is a change. -/
def changeDirectories (present : Bool) (dir : String) : Analysis Unit :=
  modify fun s =>
    if s.directories.contains dir = present then s
    else
      { s with
        directories := if present then s.directories.insert dir () else s.directories.erase dir
        directoryCalls := s.directoryCalls + s.directoryListeners }

def addDirectory (dir : String) : Analysis Unit := changeDirectories true dir

def removeDirectory (dir : String) : Analysis Unit := changeDirectories false dir

end Typeflow.Session
