import Typeflow.Session.Universe

/-! The table of modules, the replacements registered for them, and the queueing of whole modules. A
registration waits until a module that it is meant for is loaded. -/
namespace Typeflow.Session

/-- Queues the readers of every name of a project module and forgets the names. -/
def clearModule (m : ValueId) : Analysis Unit := do
  match (← get).form m with
  | .module p =>
    ((← get).scope p.scope).names.values.forM notifyReaders
    clearNames p.scope
  | _ => pure ()

/-- Clears a module and queues its body; a module that is removed or has no tree is left alone. -/
def enqueueEntry (e : EntryId) : Analysis Unit := do
  let entry := (← get).entry e
  if entry.removed then return
  match entry.unit with
  | none => pure ()
  | some u =>
    updateEntry e fun entry => { entry with version := entry.version + 1 }
    clearModule entry.module
    enqueue u .back

/-- The cell of a name, loaded or not. -/
def peek? (s : Session) (name : String) : Option RefId := s.modules.find? name

/-- The loaded and valid module of a name, without loading it. -/
def loadedModule? (s : Session) (name : String) : Found := do
  let ref := s.ref (← s.peek? name)
  let m ← ref.module
  if ref.loaded && ref.valid && (s.value m).isModule then some m else none

/-- The replacement that a module has for a function. -/
def specialization? (s : Session) (m : ValueId) (qualified : String) : Option Specialization :=
  (s.value m).table.find? qualified

/-- Puts a replacement into the table of a module. A project module with a tree is queued. -/
def specializeModule (m : ValueId) (qualified : String) (spec : Specialization) : Analysis Unit := do
  let value := (← get).value m
  modify (setValue m { value with table := value.table.insert qualified spec })
  match value.form with
  | .module p => if ((← get).entry p.entry).tree.isSome then enqueueEntry p.entry
  | _ => pure ()

/-- The module that a registration is meant for, and the name it has there: its own module when that
is loaded, otherwise the parent. -/
def targetOf? (s : Session) (r : Registration) : Option (ValueId × String) :=
  match s.loadedModule? r.module with
  | some m => some (m, r.name)
  | none => do
    let (parent, last) ← Text.lastDot r.module
    let m ← s.loadedModule? parent
    some (m, last ++ "." ++ r.name)

/-- Installs a registration if its module is loaded. -/
def install (r : Registration) : Analysis Unit := do
  match (← get).targetOf? r with
  | none => writeLog .specializations ("deferred " ++ r.module ++ "." ++ r.name)
  | some (m, qualified) =>
    specializeModule m qualified r.specialization
    count "specializations_applied" 1
    writeLog .specializations ("applied " ++ qualified ++ " on " ++ ((← get).value m).name)

/-- Puts a registration in the place of an earlier one of its name, or at the end. -/
def putRegistration (r : Registration) : List Registration → List Registration
  | [] => [r]
  | other :: rest => if other.name = r.name then r :: rest else other :: putRegistration r rest

/-- Keeps a registration and installs it if its module is loaded. -/
def register (r : Registration) : Analysis Unit := do
  modify fun s =>
    { s with
      registrations :=
        s.registrations.insert r.module (putRegistration r (s.registrations.findD r.module [])) }
  install r

/-- The registrations for a module and for its direct children, in order of the module names. -/
def registrationsFor (s : Session) (name : String) : List Registration :=
  s.registrations.toList.flatMap fun pair =>
    if pair.1 = name || (Text.lastPartBelow? name pair.1).isSome then pair.2 else []

def installAll (registrations : List Registration) : Analysis Unit := registrations.forM install

/-- Installs what waits for a module. -/
def installFor (name : String) : Analysis Unit := do installAll ((← get).registrationsFor name)

/-- Installs every registration again. -/
def installEvery : Analysis Unit := do installAll (← get).registrations.values.flatten

def registeredCount (s : Session) (name : String) : Nat := (s.registrations.findD name []).length

/-- The cell of a name; the host is asked for the module when the cell is not loaded. -/
def lookupModule (name : String) : Analysis (Option RefId) := do
  match (← get).peek? name with
  | none => return none
  | some r =>
    if ((← get).ref r).loaded then return some r
    match ← importObject name with
    | none => updateRef r fun ref => { ref with module := none, loaded := true }
    | some object =>
      let m ← moduleOfObject object
      updateRef r fun ref => { ref with module := m, loaded := true }
      writeLog .modules ("loaded builtin module " ++ name)
      installFor name
    return some r

/-- The module of a name, loaded when needed. -/
def moduleNamed (name : String) : Analysis Found := do
  match ← lookupModule name with
  | none => return none
  | some r => return ((← get).ref r).present

/-- The builtin module. -/
def builtinsModule : Analysis Found := do moduleNamed (← get).options.builtinsName

def invalidate (r : RefId) : Analysis Unit := updateRef r fun ref => { ref with valid := false }

/-- Puts a cell under a name; a different cell that was there becomes invalid. -/
def setModule (name : String) (r : RefId) : Analysis Unit := do
  if let some old := (← get).peek? name then
    if old ≠ r then invalidate old
  modify fun s => { s with modules := s.modules.insert name r }

/-- Takes a name out of the table if it has the expected cell. -/
def removeName (name : String) (expected : Option RefId) : Analysis Bool := do
  match (← get).peek? name with
  | none => return false
  | some r =>
    if some r ≠ expected then return false
    modify fun s => { s with modules := s.modules.erase name }
    return true

def isProjectModule (s : Session) (r : RefId) : Bool :=
  match (s.ref r).module with
  | some m => (s.value m).kind = .module
  | none => false

/-- Keeps the modules of the project and makes every other cell anew, not loaded. -/
def resetModules : Analysis Unit := do
  let s ← get
  let kept := s.modules.toList.filter fun pair => s.isProjectModule pair.2
  let dropped := s.modules.toList.filter fun pair => !s.isProjectModule pair.2
  dropped.forM fun pair => invalidate pair.2
  modify fun s => { s with modules := ⟨kept⟩ }
  s.host.moduleNames.forM fun name => do
    if ((← get).peek? name).isNone then
      let r ← newRef {}
      modify fun s => { s with modules := s.modules.insert name r }

/-- How surely a module has a member: it has values, it is only assigned, or neither. -/
inductive Presence where
  | absent
  | speculative
  | resolved
  deriving DecidableEq, Repr, Inhabited

namespace Presence

def label : Presence → String
  | .absent => "absent"
  | .speculative => "speculative"
  | .resolved => "resolved"

/-- The surer of two. -/
def max : Presence → Presence → Presence
  | .resolved, _ | _, .resolved => .resolved
  | .speculative, _ | _, .speculative => .speculative
  | .absent, .absent => .absent

end Presence

/-- More than the number of values: alternatives are made before what they are alternatives of. -/
def valueDepth (s : Session) : Nat := s.values.size + 1

/-- The child of a module. Every alternative is asked; `depth` bounds how far they are nested. -/
def childWithin (name : String) : Nat → ValueId → Analysis Found
  | 0, _ => throw .endless
  | depth + 1, m => do
    let value := (← get).value m
    match value.form with
    | .multiple members => aggregate (← members.mapM (childWithin name depth))
    | .module _ | .builtinModule _ => moduleNamed (value.name ++ "." ++ name)
    | _ => return none

/-- The module that stands below a module under a name. -/
def childModule (m : ValueId) (name : String) : Analysis Found := do
  childWithin name (← get).valueDepth m

/-- The children of a module that the table names, loaded one by one. -/
def childrenInTable (name : String) : Analysis (NameMap ValueId) := do
  let children := (← get).modules.names.filterMap (Text.childName? name)
  let found ← children.filterMapM fun child => do
    return (← moduleNamed (name ++ "." ++ child)).map (child, ·)
  return .ofList found

/-- The children of a module. Of the same child of several alternatives the first one counts. -/
def childrenWithin : Nat → ValueId → Analysis (NameMap ValueId)
  | 0, _ => throw .endless
  | depth + 1, m => do
    let value := (← get).value m
    match value.form with
    | .multiple members =>
      let found ← members.mapM (childrenWithin depth)
      return (found.flatMap (·.toList)).foldl (fun all pair => all.insertNew pair.1 pair.2) {}
    | .module _ | .builtinModule _ => childrenInTable value.name
    | _ => return {}

def childModules (m : ValueId) : Analysis (NameMap ValueId) := do
  childrenWithin (← get).valueDepth m

/-- Whether a module has a member. Nothing is loaded to find out. -/
def presenceWithin (s : Session) (name : String) : Nat → ValueId → Presence
  | 0, _ => .absent
  | depth + 1, m =>
    let value := s.value m
    let cell := s.peek? (value.name ++ "." ++ name)
    match value.form with
    | .multiple members =>
      (members.map (s.presenceWithin name depth)).foldl Presence.max .absent
    | .builtinModule object =>
      if (s.host.member? object name).isSome || cell.isSome then .resolved else .absent
    | .module p =>
      let record := (s.findName? p.scope name).map s.var
      match record with
      | some x =>
        if !x.types.isEmpty then .resolved
        else if !x.assignments.isEmpty then .speculative
        else if (cell.bind fun r => (s.ref r).present).isSome then .resolved
        else .absent
      | none => if (cell.bind fun r => (s.ref r).present).isSome then .resolved else .absent
    | _ => .absent

def presence (s : Session) (m : ValueId) (name : String) : Presence :=
  s.presenceWithin name s.valueDepth m

end Typeflow.Session
