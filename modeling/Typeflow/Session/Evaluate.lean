import Typeflow.Session.Answer

/-! The values of expressions, as seen from a unit. -/
namespace Typeflow.Session

/-- The record that a name refers to: the innermost scope that binds it. The names of a class are not
seen from the functions in it. -/
def visibleName? (s : Session) (scope : ScopeId) (name : String) : Option VarId :=
  (s.enclosing scope).findSome? fun c =>
    if (s.scope c).kind = .class_ && c ≠ scope then none
    else (s.findName? c name).filter fun x => (s.var x).isBound

/-- The values of a name. A name that is bound nowhere is looked up among the builtins, and the unit
runs again when the module binds it later. -/
def lookupName (name : String) (site : Site) : Analysis ValueSet := do
  let s ← get
  let scope := s.scopeAt site
  match s.visibleName? scope name with
  | some x =>
    addReader x site.unit
    addReference x (s.locationAt site)
    return (← get).types x
  | none =>
    addReader (← nameIn (s.moduleScope scope) name) site.unit
    match ← builtinsModule with
    | none => return .empty
    | some m => answer m (.member name) site

/-- The types that the classes in a set stand for. -/
def indexTypes (s : Session) (values : ValueSet) : List ObjectId :=
  values.items.filterMap fun v =>
    match s.form v with
    | .builtinClass type => some type
    | _ => none

/-- A builtin class applied to other builtin classes. -/
def appliedClass (v : ValueId) (index : ValueSet) : Analysis Found := do
  let s ← get
  match s.form v, s.indexTypes index with
  | .builtinClass _, [] => return none
  | .builtinClass type, types => genericType (some type) types
  | _, _ => return none

/-- A value at an index. A builtin class that the host can apply to the index is applied. -/
def subscriptOf (v : ValueId) (index : ValueSet) (site : Site) : Analysis ValueSet := do
  match ← appliedClass v index with
  | some made => return .single (some made)
  | none => answer v (.index index) site

/-- The sequence of a literal, made once for its node before its elements are evaluated. -/
def literalSequence (id : TypeId) (site : Site) : Analysis ValueSet :=
  siteValue site do return .single (← newSequence (← knownType id))

mutual

/-- The values of an expression as seen from a unit. -/
def evaluate (u : UnitId) : Expr → Analysis ValueSet
  | .missing => return .empty
  | .name mark id => lookupName id ⟨mark.node .name, u⟩
  | .attribute mark value attr => do
    let target ← evaluate u value
    answer.all target (.member attr) ⟨mark.node .attribute, u⟩
  | .subscript mark value slice => do
    let target ← evaluate u value
    let index ← evaluate u slice
    ValueSet.joinM target.items fun v => subscriptOf v index ⟨mark.node .subscript, u⟩
  | .call mark callee args names => do
    let target ← evaluate u callee
    let values ← evaluateAll u args
    answer.callAll target values names ⟨mark.node .call, u⟩
  | .tuple mark elements => do
    let made ← literalSequence .tuple ⟨mark.node .tupleLiteral, u⟩
    addToSequences made (.unionAll (← evaluateAll u elements) 0)
    return made
  | .list mark elements => do
    let made ← literalSequence .list ⟨mark.node .listLiteral, u⟩
    addToSequences made (.unionAll (← evaluateAll u elements) 0)
    return made
  | .literal _ value => constantSet value

/-- The values of several expressions, from the left. -/
def evaluateAll (u : UnitId) : List Expr → Analysis (List ValueSet)
  | [] => return []
  | e :: rest => do
    let first ← evaluate u e
    return first :: (← evaluateAll u rest)

end

end Typeflow.Session
