import Typeflow.Proofs.Generation.Reload
import Typeflow.Proofs.NodeValues.Ledger
import Typeflow.Proofs.Slots.Life

/-! Values of nodes that are made by looking up the values of other nodes. Whatever the nodes and scopes, and whatever
names come and go meanwhile, each value is made once and stays until its scope forgets it. -/
namespace Typeflow

open Session

/-- A way to make the value of a node. It looks up values of nodes, each with a way to make it, makes names, finds
them and has scopes lose them, goes on with what it learns, and in the end yields a value. -/
inductive NodeTask (n : Nat) where
  | yield (values : ValueSet)
  | lookup (key : NodeKey n) (factory : NodeTask n) (next : ValueSet → NodeTask n)
  | create (scope : Fin n) (name : String) (next : VarId → NodeTask n)
  | find (scope : Fin n) (name : String) (next : Option VarId → NodeTask n)
  | clear (scope : Fin n) (next : NodeTask n)

/-- A use of scopes from outside of all tasks. -/
inductive NodeUse (n : Nat) where
  | perform (task : NodeTask n)
  | forget (scope : Fin n)

variable {n : Nat}

/-- Makes the value of a node and tells so. -/
def NodeKey.telling (key : NodeKey n) (make : Analysis (ValueSet × List (NodeIncident n))) :
    Analysis (ValueSet × List (NodeIncident n)) := do
  let (values, inner) ← make
  return (values, .began key :: inner ++ [.yielded key values])

/-- The value that a task yields, and what happens until it does. -/
def NodeTask.run : NodeTask n → Analysis (ValueSet × List (NodeIncident n))
  | .yield values => return (values, [])
  | .lookup key factory next => do
    let (values, made) ← nodeValueAnd ⟨key.scope⟩ key.node (key.telling factory.run)
    let (result, more) ← (next values).run
    return (result, .asked key :: made.getD [] ++ .answered key values :: more)
  | .create scope name next => do (next (← nameIn ⟨scope⟩ name)).run
  | .find scope name next => do (next ((← get).findName? ⟨scope⟩ name)).run
  | .clear scope next => do
    clearNames ⟨scope⟩
    let (result, more) ← next.run
    return (result, .dropped scope :: more)

def NodeUse.run : NodeUse n → Analysis (List (NodeIncident n))
  | .perform task => do return (← task.run).2
  | .forget scope => do
    clearNodeValues ⟨scope⟩
    return [.forgot scope]

/-- All that happens in a history. -/
def NodeUse.runAll : List (NodeUse n) → Analysis (List (NodeIncident n))
  | [] => return []
  | use :: rest => do
    let events ← use.run
    return events ++ (← NodeUse.runAll rest)

namespace Session

private theorem nodes_withoutNames (s : Session) (c d : ScopeId) :
    ((s.withoutNames c).scope d).nodeValues = (s.scope d).nodeValues := by
  simp only [withoutNames, scope, getD_setIfInBounds]
  split
  · next h => rw [ScopeId.index_inj.1 h.1]
  · rfl

/-- A scope loses its names, all of them, and nothing else changes in what scopes hold. -/
structure LosesNames (c : ScopeId) (s t : Session) : Prop where
  names : ∀ name, t.findName? c name = none
  others : ∀ d ≠ c, ∀ name, t.findName? d name = s.findName? d name
  nodes : ∀ d node, t.slot d node = s.slot d node

private theorem losesNames (c : ScopeId) (s : Session) : LosesNames c s (s.withoutNames c) where
  names name := by
    rw [findName?, Unnames.scope_withoutNames, if_pos rfl]
    rfl
  others d other name := by rw [findName?, Unnames.scope_withoutNames, if_neg other, findName?]
  nodes d node := by rw [slot, nodes_withoutNames, slot]

end Session

/-- The scopes keep what the ledger tells. -/
structure NodeLedger.Holds (l : NodeLedger n) (s : Session) : Prop where
  scopes : n ≤ s.scopes.size
  slots : ∀ key : NodeKey n, s.slot ⟨key.scope⟩ key.node = l.kept key

/-- The incidents may happen, the same lookups go on after them, and then the scopes keep what the ledger tells. -/
structure NodeLedger.Leads (l : NodeLedger n) (events : List (NodeIncident n)) (t : Session) : Prop where
  told : l.Tells events
  calls : (l.after events).calls = l.calls
  holds : (l.after events).Holds t

namespace NodeLedger

variable {l m : NodeLedger n} {s t : Session} {events more : List (NodeIncident n)} {key : NodeKey n} {values : ValueSet}

theorem Holds.of_same (h : l.Holds s) (scopes : t.scopes.size = s.scopes.size)
    (nodes : ∀ c, (t.scope c).nodeValues = (s.scope c).nodeValues) : l.Holds t where
  scopes := scopes ▸ h.scopes
  slots key := by
    rw [slot, nodes]
    exact h.slots key

theorem Holds.withoutNames (h : l.Holds s) (c : ScopeId) : l.Holds (s.withoutNames c) := by
  have size : (s.withoutNames c).scopes.size = s.scopes.size := by simp [Session.withoutNames]
  exact h.of_same size (nodes_withoutNames s c)

/-- The scope of a node keeps the value that it is given, and nothing else changes. -/
theorem Holds.set (h : l.Holds s) (kept : m.kept = Function.update l.kept key (some values)) :
    m.Holds (Session.after (setNodeValue ⟨key.scope⟩ key.node values) s) where
  scopes := by
    have size : (Session.after (setNodeValue ⟨key.scope⟩ key.node values) s).scopes.size = s.scopes.size := by
      simp [setNodeValue]
    exact size ▸ h.scopes
  slots other := by
    have there : key.scope.val < s.scopes.size := Nat.lt_of_lt_of_le key.scope.isLt h.scopes
    have same : (⟨other.scope⟩ : ScopeId) = ⟨key.scope⟩ ∧ other.node = key.node ↔ other = key := by
      rw [ScopeId.mk.injEq, Fin.val_inj, ← NodeKey.mk.injEq]
    rw [slot, lookup_setNodeValue, kept, Function.update_apply]
    simp only [there, and_true, same]
    rw [← h.slots other, slot]

theorem Holds.forget (h : l.Holds s) (scope : Fin n) :
    (l.note (.forgot scope)).Holds (s.withoutNodeValues ⟨scope⟩) where
  scopes := by
    have size : (s.withoutNodeValues ⟨scope⟩).scopes.size = s.scopes.size := by simp [withoutNodeValues]
    exact size ▸ h.scopes
  slots key := by
    have there : scope.val < s.scopes.size := Nat.lt_of_lt_of_le scope.isLt h.scopes
    rw [slot_withoutNodeValues, h.slots key]
    simp only [there, and_true, ScopeId.mk.injEq, Fin.val_inj]
    rfl

namespace Leads

theorem nil (h : l.Holds s) : l.Leads [] s := ⟨trivial, rfl, h⟩

theorem append (h : l.Leads events s) (g : (l.after events).Leads more t) : l.Leads (events ++ more) t := by
  have ends : l.after (events ++ more) = (l.after events).after more := List.foldl_append
  constructor
  · exact tells_append.2 ⟨h.told, g.told⟩
  · rw [ends, g.calls, h.calls]
  · rw [ends]
    exact g.holds

theorem idle (h : l.Leads events s) (idle : l.Idle) : (l.after events).Idle := by rwa [Idle, h.calls]

/-- A lookup makes a value for its node unless one is kept, and answers with the value. -/
theorem lookup (key : NodeKey n) {make : Analysis (ValueSet × List (NodeIncident n))} (h : l.Holds s) (idle : l.Idle)
    (makes : ∀ {m : NodeLedger n} {r : Session}, m.Holds r → m.Idle →
      ∃ values inner t, make r = .ok (values, inner) t ∧ m.Leads inner t) :
    ∃ values made t,
      nodeValueAnd ⟨key.scope⟩ key.node (key.telling make) s = .ok (values, made) t ∧
      l.Leads (.asked key :: made.getD [] ++ [.answered key values]) t := by
  have slot := h.slots key
  rw [Session.slot] at slot
  cases found : l.kept key with
  | some values =>
    rw [found] at slot
    refine ⟨values, none, s, ?_, ⟨.ask key idle, .reuse rfl found, trivial⟩, rfl, h⟩
    simp only [nodeValueAnd, read_run, slot]
    rfl
  | none =>
    rw [found] at slot
    -- The empty set is kept for the node while its value is made.
    let opened := (l.note (.asked key)).note (.began key)
    let reserved := Session.after (setNodeValue ⟨key.scope⟩ key.node .empty) s
    have holds : opened.Holds reserved := h.set rfl
    obtain ⟨values, inner, t, made, leads⟩ := makes holds (by rintro _ _ _ ⟨⟩; rfl)
    have top : (opened.after inner).calls = (key, .making) :: l.calls := leads.calls
    have ran : key.telling make reserved = .ok (values, .began key :: inner ++ [.yielded key values]) t :=
      bind_of_ok made
    refine ⟨values, some (.began key :: inner ++ [.yielded key values]),
      Session.after (setNodeValue ⟨key.scope⟩ key.node values) t, ?_, ?_⟩
    · simp only [nodeValueAnd, read_run, slot]
      exact bind_of_ok ran
    have began : l.Tells [.asked key, .began key] := ⟨.ask key idle, .start rfl found, trivial⟩
    have ended : (opened.after inner).Tells [.yielded key values, .answered key values] :=
      ⟨.finish values top, .keep rfl, trivial⟩
    have events : .asked key :: (some (.began key :: inner ++ [.yielded key values])).getD [] ++ [.answered key values] =
        [.asked key, .began key] ++ (inner ++ [.yielded key values, .answered key values]) := by simp
    have ends : l.after ([.asked key, .began key] ++ (inner ++ [.yielded key values, .answered key values])) =
        ((opened.after inner).note (.yielded key values)).note (.answered key values) := by
      rw [NodeLedger.after, List.foldl_append, List.foldl_append]
      rfl
    rw [events]
    constructor
    · exact tells_append.2 ⟨began, tells_append.2 ⟨leads.told, ended⟩⟩
    · rw [ends]
      exact congrArg List.tail top
    · rw [ends]
      exact leads.holds.set rfl

end Leads

end NodeLedger

/-- Whatever a task does, it yields a value, and all that happens may happen when it does. -/
theorem NodeTask.leads (task : NodeTask n) {l : NodeLedger n} {s : Session} (holds : l.Holds s) (idle : l.Idle) :
    ∃ values events t, task.run s = .ok (values, events) t ∧ l.Leads events t := by
  induction task generalizing l s with
  | yield values => exact ⟨values, [], s, rfl, .nil holds⟩
  | lookup key factory next ihFactory ihNext =>
    obtain ⟨values, made, t, ran, looked⟩ := NodeLedger.Leads.lookup key holds idle ihFactory
    obtain ⟨result, more, r, goesOn, rest⟩ := ihNext values looked.holds (looked.idle idle)
    refine ⟨result, .asked key :: made.getD [] ++ .answered key values :: more, r, ?_, ?_⟩
    · rw [NodeTask.run, bind_of_ok ran]
      exact bind_of_ok goesOn
    · have both := looked.append rest
      rwa [List.append_assoc] at both
  | create scope name next ih =>
    have named := Fills.nameIn ⟨scope⟩ name s
    obtain ⟨x, ran, -⟩ := Fills.nameIn_finds ⟨scope⟩ name s
    obtain ⟨values, events, t, goesOn, rest⟩ := ih x (holds.of_same named.scopes named.nodes) idle
    refine ⟨values, events, t, ?_, rest⟩
    rw [NodeTask.run, bind_of_ok ran]
    exact goesOn
  | find scope name next ih => exact ih (s.findName? ⟨scope⟩ name) holds idle
  | clear scope next ih =>
    have same : l.Holds (s.withoutNames ⟨scope⟩) := holds.withoutNames ⟨scope⟩
    obtain ⟨values, events, t, goesOn, rest⟩ := ih same idle
    have dropped : l.Leads [.dropped scope] (s.withoutNames ⟨scope⟩) := ⟨⟨.drop scope idle, trivial⟩, rfl, same⟩
    exact ⟨values, .dropped scope :: events, t, bind_of_ok goesOn, dropped.append rest⟩

/-- A history comes to its end, and all that happens may happen when it does. -/
theorem NodeUse.leads (history : List (NodeUse n)) {l : NodeLedger n} {s : Session} (holds : l.Holds s)
    (quiet : l.calls = []) : ∃ events t, NodeUse.runAll history s = .ok events t ∧ l.Leads events t := by
  induction history generalizing l s with
  | nil => exact ⟨[], s, rfl, .nil holds⟩
  | cons use rest ih =>
    have step : ∃ events t, use.run s = .ok events t ∧ l.Leads events t := by
      cases use with
      | perform task =>
        have idle : l.Idle := by
          rw [NodeLedger.Idle, quiet]
          nofun
        obtain ⟨values, events, t, ran, leads⟩ := task.leads holds idle
        exact ⟨events, t, bind_of_ok ran, leads⟩
      | forget scope => exact ⟨[.forgot scope], _, rfl, ⟨.forget scope quiet, trivial⟩, rfl, holds.forget scope⟩
    obtain ⟨events, t, ran, leads⟩ := step
    obtain ⟨more, r, goesOn, others⟩ := ih leads.holds (leads.calls.trans quiet)
    refine ⟨events ++ more, r, ?_, leads.append others⟩
    rw [NodeUse.runAll, bind_of_ok ran]
    exact bind_of_ok goesOn

/-- Values of nodes keep their identity. Whatever the scopes of a session are used for, each value is made once, as
the laws say, until its scope forgets the values of its nodes, and a scope that is cleared loses all names and no
value of a node. -/
theorem node_values_keep_identity (s : Session) (history : List (NodeUse s.scopes.size)) :
    (∃ events t, NodeUse.runAll history s = .ok events t ∧
      NodeLaws (fun key => s.slot ⟨key.scope⟩ key.node) events) ∧
    ∀ (r : Session) (c : ScopeId), ∃ t, clearNames c r = .ok () t ∧ LosesNames c r t := by
  constructor
  · let start : NodeLedger s.scopes.size := { kept := fun key => s.slot ⟨key.scope⟩ key.node }
    have holds : start.Holds s := ⟨Nat.le_refl _, fun _ => rfl⟩
    obtain ⟨events, t, ran, leads⟩ := NodeUse.leads history holds rfl
    exact ⟨events, t, ran, leads.told.laws rfl leads.calls⟩
  · intro r c
    exact ⟨r.withoutNames c, rfl, losesNames c r⟩

/-- The value of a node is made with the help of itself, of another node and of a scope that loses its names. -/
example :
    let inner : NodeKey 2 := ⟨1, ⟨3⟩⟩
    let outer : NodeKey 2 := ⟨0, ⟨3⟩⟩
    let made : ValueSet := .single none
    let task : NodeTask 2 :=
      .lookup outer (.lookup outer (.yield made) fun _ => .lookup inner (.yield made) fun values =>
        .clear 0 (.yield values)) fun _ => .lookup outer (.yield .empty) .yield
    ∃ t, NodeUse.runAll [.perform task, .forget 0] { scopes := #[{}, {}] } = .ok
      [.asked outer, .began outer, .asked outer, .answered outer .empty, .asked inner, .began inner,
        .yielded inner made, .answered inner made, .dropped 0, .yielded outer made, .answered outer made,
        .asked outer, .answered outer made, .forgot 0] t := ⟨_, rfl⟩

end Typeflow
