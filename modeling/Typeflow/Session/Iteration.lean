import Typeflow.Session.Members

/-! Iteration and indexing, by the methods of a value or by what is known of its elements. -/
namespace Typeflow.Session

/-- Asks the instance of a type that may be absent. -/
def askExemplar (ask : Ask) (type : Found) (q : Question) (site : Site) : Analysis ValueSet := do
  match ← exemplarOf type with
  | none => return .empty
  | some v => ask v q site

/-- The iterator that a sequence keeps over its elements, made when there is none. -/
def sequenceIterator (v : ValueId) (elements : VarId) : Analysis ValueSet := do
  return .single (← keptOr v .iterator do newIterator (← knownType .listIterator) (some elements))

/-- The rule for iterators. -/
def iteratorOf (ask : Ask) (v : ValueId) (site : Site) : Analysis ValueSet := do
  match (← get).form v with
  | .constant type _ => askExemplar ask type .iterator site
  | .sequence _ elements => sequenceIterator v elements
  | .iterator .. => return .single v
  | _ => ask.callMember v "__iter__" [] [] site

/-- What one iterator yields. -/
def nextOf (ask : Ask) (iterator : ValueId) (site : Site) : Analysis ValueSet := do
  let s ← get
  if (s.value iterator).kind = .iterator then ask iterator .elements site
  else ask.callMember iterator s.nextMethod [] [] site

/-- What the iterators of a value yield. -/
def elementsByMethod (ask : Ask) (v : ValueId) (site : Site) : Analysis ValueSet := do
  ValueSet.joinM (← ask v .iterator site).items fun iterator => nextOf ask iterator site

/-- The type identifier of a builtin class. -/
def typeIdOf (s : Session) (cls : ValueId) : TypeId :=
  match s.form cls with
  | .builtinClass type => s.host.typeId type
  | _ => .unknown

/-- What text yields when its methods say nothing: itself, and numbers for byte strings of the newer
language. -/
def textElements (cls : ValueId) : Analysis ValueSet := do
  let s ← get
  let id := s.typeIdOf cls
  if !id.isText then return .empty
  if id = .bytes && s.isV3 then knownInstance .int else instancesOf cls

/-- The rule for elements. -/
def elementsOf (ask : Ask) (v : ValueId) (site : Site) : Analysis ValueSet := do
  match (← get).form v with
  | .constant type _ => askExemplar ask type .elements site
  | .sequence _ elements | .iterator _ elements => readAt elements site
  | .builtinInstance cls =>
    let found ← elementsByMethod ask v site
    if found.isEmpty && ((← get).typeIdOf cls).isText then textElements cls else return found
  | _ => elementsByMethod ask v site

/-- What the method for indexing yields. -/
def indexByMethod (ask : Ask) (v : ValueId) (index : ValueSet) (site : Site) : Analysis ValueSet :=
  ask.callMember v "__getitem__" [index] [""] site

/-- The rule for indexing. Text that says nothing else has pieces of its own type. -/
def indexOf (ask : Ask) (v : ValueId) (index : ValueSet) (site : Site) : Analysis ValueSet := do
  match (← get).form v with
  | .constant type _ => askExemplar ask type (.index index) site
  | .sequence _ elements => readAt elements site
  | .builtinInstance cls =>
    let found ← indexByMethod ask v index site
    if found.isEmpty && ((← get).typeIdOf cls).isText then instancesOf cls else return found
  | _ => indexByMethod ask v index site

end Typeflow.Session
