import Typeflow.Session.Overrides

/-! Answers to the questions that are asked of values. -/
namespace Typeflow.Session

/-- The rule for calls. -/
def callOf (ask : Ask) (v : ValueId) (args : List ValueSet) (names : List String) (site : Site) :
    Analysis ValueSet := do
  match (← get).form v with
  | .builtinClass type =>
    let id := (← get).host.typeId type
    if id = .list || id = .tuple then callSequenceType ask v args site else instancesOf v
  | .builtinInstance _ | .userInstance .. => ask.callMember v "__call__" args names site
  | .builtinFunction object => returnedInstances (some object)
  | .builtinMethod object => returnedInstances ((← get).host.functionOf? object)
  | .constant type _ => askExemplar ask type (.call args names) site
  | .multiple members => ValueSet.joinM members fun member => ask member (.call args names) site
  | .userClass _ => callClass ask v args names site
  | .function f => callFunction v f args names site
  | .boundMethod function self =>
    ask function (.call (.single (some self) :: args) (methodNames args names)) site
  | .wrapper w => callWrapper ask w ⟨args, names⟩ site
  | .builtinProperty _ | .builtinModule _ | .reflected _ | .module _ | .sequence ..
  | .iterator .. | .super .. => return .empty

/-- Answers a question by the rule for it; further questions are asked by `ask`. -/
def respond (ask : Ask) : Ask := fun v q site =>
  match q with
  | .member name => memberOf ask v name site
  | .call args names => callOf ask v args names site
  | .iterator => iteratorOf ask v site
  | .elements => elementsOf ask v site
  | .index i => indexOf ask v i site

/-- Answers a question when questions lead to further ones no deeper than `depth`. -/
def answerWithin : Nat → Ask
  | 0 => fun _ _ _ => throw .endless
  | depth + 1 => respond (answerWithin depth)

/-- How deep questions may lead to further ones. -/
def questionDepth : Nat := 10000

/-- Answers a question. -/
def answer : Ask := answerWithin questionDepth

end Typeflow.Session
