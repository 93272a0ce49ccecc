import Typeflow.Session.Names

/-! Histories of scopes in which the values of nodes are made by further steps. -/
namespace Typeflow.Session

inductive ScopeStep where
  | create (scope : ScopeId) (name : String)
  | find (scope : ScopeId) (name : String)
  | add (scope : ScopeId) (name : String) (values : ValueSet)
  /-- Asks for the value of a node; it is made by running the nested steps. -/
  | node (scope : ScopeId) (node : NodeId) (values : ValueSet) (nested : List ScopeStep)
  | clear (scope : ScopeId)
  | clearNodes (scope : ScopeId)
  | outermost (scope : ScopeId)
  deriving Inhabited

inductive ScopeResult where
  | values (set : ValueSet)
  | noName
  | changed (grew : Bool)
  | done
  | scope (scope : ScopeId)
  deriving DecidableEq

/-- What a step yields, with the names of its scope when it ends. -/
structure ScopeEvent where
  result : ScopeResult
  names : List String
  deriving DecidableEq

def scopeEvent (scope : ScopeId) (result : ScopeResult) : Analysis (List ScopeEvent) := do
  return [⟨result, ((← get).scope scope).names.names⟩]

mutual

/-- Runs a step. The events of nested steps come before its own. -/
def ScopeStep.run : ScopeStep → Analysis (List ScopeEvent)
  | .create scope name => do
    let x ← nameIn scope name
    scopeEvent scope (.values ((← get).types x))
  | .find scope name => do
    let s ← get
    match s.findName? scope name with
    | none => scopeEvent scope .noName
    | some x => scopeEvent scope (.values (s.types x))
  | .add scope name values => do
    let grew ← addTypes (← nameIn scope name) values
    scopeEvent scope (.changed grew)
  | .node scope place values nested => do
    let (kept, events) ← nodeValueAnd scope place do return (values, ← ScopeStep.runAll nested)
    return events.getD [] ++ (← scopeEvent scope (.values kept))
  | .clear scope => do
    clearNames scope
    scopeEvent scope .done
  | .clearNodes scope => do
    clearNodeValues scope
    scopeEvent scope .done
  | .outermost scope => do
    scopeEvent scope (.scope ((← get).moduleScope scope))

def ScopeStep.runAll : List ScopeStep → Analysis (List ScopeEvent)
  | [] => return []
  | step :: rest => do
    let first ← step.run
    return first ++ (← ScopeStep.runAll rest)

end

end Typeflow.Session
