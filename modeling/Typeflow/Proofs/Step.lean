import Mathlib.Logic.Relation
import Typeflow.Proofs.Action
import Typeflow.Proofs.Bodies

/-! The changes that the evaluation of a program makes to a session, one by one. -/
namespace Typeflow

/-- The scope that a value owns. -/
def Form.scope? : Form → Option ScopeId
  | .module m => some m.scope
  | .userClass c => some c.scope
  | .function f => some f.scope
  | _ => none

namespace Session

/-- What the code that is being evaluated may do: keep values for nodes, and define. -/
structure Licence where
  keep : NodeId → Prop
  define : UnitId → Body → Prop

/-- What a unit with a body may do: keep values for the nodes of the body and define what it defines. -/
def licence (u : UnitId) (body : Body) : Licence where
  keep n := n ∈ body.places
  define v b := v = u ∧ b ∈ body.definitions

/-- What may be done without running any body. -/
def noLicence : Licence := ⟨fun _ => False, fun _ _ => False⟩

/-- A change that leaves alone what the program has: values, names, scopes, units, modules, the queue. -/
structure Bookkeeping (s t : Session) : Prop where
  values : t.values = s.values := by rfl
  records : t.records = s.records := by rfl
  scopes : t.scopes = s.scopes := by rfl
  units : t.units = s.units := by rfl
  entries : t.entries = s.entries := by rfl
  queue : t.queue = s.queue := by rfl
  liveUnits : t.liveUnits = s.liveUnits := by rfl
  nextNode : t.nextNode = s.nextNode := by rfl

theorem Bookkeeping.refl (s : Session) : Bookkeeping s s := by
  constructor <;> rfl

/-- The value is a sequence whose elements have their record. -/
def HasElements (s : Session) (v : ValueId) : Prop :=
  ∃ type x, s.form v = .sequence type x ∧ x.index < s.records.size

/-- One change to a session in the course of an evaluation. What a function keeps for left-over arguments is a
sequence. -/
inductive Step (L : Licence) (s : Session) : Session → Prop
  | bookkeep {t : Session} (h : Bookkeeping s t) : Step L s t
  | makeValue (value : Value) (h : value.form.scope? = none) (free : value.kept? .rest = none) :
      Step L s { s with values := s.values.push value }
  | amendValue (v : ValueId) (value : Value) (h : value.form = s.form v)
      (rest : ∀ w, value.kept? .rest = some w → (s.value v).kept? .rest = some w ∨ s.HasElements w) :
      Step L s (s.setValue v value)
  | resolve (cls : ValueId) (on : Bool) : Step L s (after (setResolving cls on) s)
  | attributeOf (v : ValueId) (name : String) : Step L s (after (attributeOf v name) s)
  | newVariable (cap : Nat) : Step L s (after (newVariable cap) s)
  | nameIn (scope : ScopeId) (name : String) : Step L s (after (nameIn scope name) s)
  | addTypes (x : VarId) (values : ValueSet) : Step L s (after (addTypes x values) s)
  | addReader (x : VarId) (reader : UnitId) : Step L s (after (addReader x reader) s)
  | addAssignment (x : VarId) (place : Location) : Step L s (after (addAssignment x place) s)
  | addReference (x : VarId) (place : Location) : Step L s (after (addReference x place) s)
  | keepValue (scope : ScopeId) (node : NodeId) (values : ValueSet) (h : L.keep node) :
      Step L s (after (setNodeValue scope node values) s)
  | enqueue (u : UnitId) (place : QueueEnd) : Step L s (after (enqueue u place) s)
  | clearModule (m : ValueId) : Step L s (after (clearModule m) s)
  | enqueueBody (v : ValueId) (place : QueueEnd) : Step L s (after (enqueueBody v place) s)
  | enqueueEntry (e : EntryId) : Step L s (after (enqueueEntry e) s)
  | defineFunction (u : UnitId) (body : Body) (name : String) (params : List (String × ParamKind))
      (h : L.define u body) (kind : body.kind = .function) :
      Step L s (after (definitionAt u body.node .function (newFunction u body name params)) s)
  | defineClass (u : UnitId) (body : Body) (name : String) (h : L.define u body)
      (kind : body.kind = .userClass) :
      Step L s (after (definitionAt u body.node .userClass (newClass u body name)) s)

theorem kept?_keep_ne {value : Value} {slot asked : Slot} {w v : ValueId} (other : asked ≠ slot)
    (kept : (value.keep slot w).kept? asked = some v) : value.kept? asked = some v := by
  rwa [Value.kept?_keep, if_neg other] at kept

/-- Any number of changes. -/
def Steps (L : Licence) : Session → Session → Prop := Relation.ReflTransGen (Step L)

/-- An invariant of every change is an invariant of every number of changes. -/
theorem Steps.induct {L : Licence} {P : Session → Prop} (step : ∀ s t, Step L s t → P s → P t)
    {s t : Session} (h : Steps L s t) (hs : P s) : P t := by
  induction h with
  | refl => exact hs
  | tail _ hst ih => exact step _ _ hst ih

/-- The action proceeds by changes that are allowed, up to where it ends or fails. -/
def Stepwise (L : Licence) {α : Type} (m : Analysis α) : Prop := ∀ s, Steps L s (after m s)

namespace Stepwise

variable {L : Licence} {α β : Type}

theorem of_step {m : Analysis α} (h : ∀ s, Step L s (after m s)) : Stepwise L m :=
  fun s => .single (h s)

theorem of_bookkeeping {m : Analysis α} (h : ∀ s, Bookkeeping s (after m s)) : Stepwise L m :=
  of_step fun s => .bookkeep (h s)

theorem pure (a : α) : Stepwise L (Pure.pure a) := fun _ => .refl

theorem throw (e : Fault) : Stepwise L (MonadExcept.throw e : Analysis α) := fun _ => .refl

theorem bind {m : Analysis α} {f : α → Analysis β} (hm : Stepwise L m)
    (hf : ∀ a, Stepwise L (f a)) : Stepwise L (m >>= f) := by
  intro s
  cases h : m s with
  | ok a t =>
    rw [after_bind_of_ok h]
    have hs : Steps L s t := by simpa only [after_of_ok h] using hm s
    exact hs.trans (hf a t)
  | error e t =>
    rw [after_bind_of_error h]
    simpa only [after_of_error h] using hm s

/-- Reading the session changes nothing. -/
theorem read {f : Session → Analysis β} (hf : ∀ s, Stepwise L (f s)) : Stepwise L (get >>= f) :=
  bind (fun _ => .refl) hf

/-- A change that depends on the session at the moment. -/
theorem readStep {m : Session → Analysis α} {f : Session → α → Analysis β}
    (hm : ∀ s, Step L s (after (m s) s)) (hf : ∀ s a, Stepwise L (f s a)) :
    Stepwise L (get >>= fun s => m s >>= f s) := by
  intro s
  have first : Steps L s (after (m s) s) := .single (hm s)
  change Steps L s (after (m s >>= f s) s)
  cases h : m s s with
  | ok a t =>
    rw [after_of_ok h] at first
    rw [after_bind_of_ok h]
    exact first.trans (hf s a t)
  | error e t =>
    rw [after_of_error h] at first
    rwa [after_bind_of_error h]

theorem ite {c : Prop} [Decidable c] {m n : Analysis α} (hm : Stepwise L m) (hn : Stepwise L n) :
    Stepwise L (if c then m else n) := by
  split
  · exact hm
  · exact hn

theorem composes : Composes (@Stepwise L) := ⟨pure, bind⟩

theorem forM {f : α → Analysis Unit} (h : ∀ a, Stepwise L (f a)) (items : List α) : Stepwise L (items.forM f) :=
  composes.forM h items

theorem joinM {f : α → Analysis ValueSet} (h : ∀ a, Stepwise L (f a)) (items : List α) :
    Stepwise L (ValueSet.joinM items f) := composes.joinM h items

theorem all {ask : Ask} {q : Question} {site : Site} (h : ∀ v, Stepwise L (ask v q site))
    (values : ValueSet) : Stepwise L (ask.all values q site) :=
  joinM h values.items

end Stepwise

end Session

end Typeflow
