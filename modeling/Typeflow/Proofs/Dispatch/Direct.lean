import Typeflow.Proofs.Dispatch.Fixed
import Typeflow.Proofs.Dispatch.Returns
import Typeflow.Proofs.Lookup.Total

/-! Calls that look no method up, and questions that are answered by one. -/
namespace Typeflow

/-- What a call of a value is passed on to, where no method is looked up. A function binds its arguments, and what
cannot be called yields nothing. -/
def Form.passesCalls : Form → Option (List ValueId)
  | .boundMethod inner _ => some [inner]
  | .multiple members => some members
  | .function _ | .builtinFunction _ | .builtinMethod _ | .builtinProperty _ | .builtinModule _ | .module _
  | .sequence .. | .iterator .. | .super .. => some []
  | _ => none

private theorem Form.passesCalls_of_kind {form other : Form} (kind : form.kind = other.kind) (own : form.isShared = false) :
    form.passesCalls = other.passesCalls := by
  cases form <;> cases other <;> cases kind <;> first | rfl | cases own

/-- Whether the form is that of an instance of a class, which answers by its methods. -/
def Form.isInstance : Form → Bool
  | .builtinInstance _ | .userInstance .. => true
  | _ => false

namespace Session

variable {s t : Session} {depth : Nat} {v : ValueId} {args : List ValueSet} {names : List String} {site : Site}

/-- Whether a call of the value is passed on less than `depth` times, and without a lookup. -/
def isDirect (s : Session) : Nat → ValueId → Bool
  | 0, _ => false
  | depth + 1, v =>
    match (s.form v).passesCalls with
    | some others => others.all (s.isDirect depth)
    | none => false

namespace Fixes

theorem passesCalls (h : Fixes s t) {others : List ValueId} (passes : (s.form v).passesCalls = some others) :
    (t.form v).passesCalls = some others := by
  have there : v.index < s.values.size := index_lt_of_form fun same => by
    rw [same] at passes
    cases passes
  cases own : (s.form v).isShared with
  | true => rwa [h.shared v there own]
  | false => rwa [← Form.passesCalls_of_kind (h.kind v there).symm own]

theorem isDirect (h : Fixes s t) (direct : s.isDirect depth v = true) : t.isDirect depth v = true := by
  induction depth generalizing v with
  | zero => exact direct
  | succ depth ih =>
    unfold Session.isDirect at direct ⊢
    cases passes : (s.form v).passesCalls with
    | none =>
      rw [passes] at direct
      cases direct
    | some others =>
      rw [passes] at direct
      rw [h.passesCalls passes]
      exact List.all_eq_true.2 fun w mem => ih (List.all_eq_true.1 direct w mem)

end Fixes

section Returns

variable {α : Type} {P : Session → α → Prop} {f : α → Analysis ValueSet}

/-- A union is found if each part is, whatever was done for the parts before. -/
theorem joinM_returns (ends : ∀ s a, P s a → Returns (f a) s) (stays : ∀ s a b, P s b → P (after (f a) s) b)
    (items : List α) {s : Session} (holds : ∀ a ∈ items, P s a) : Returns (ValueSet.joinM items f) s := by
  induction items generalizing s with
  | nil => exact returns_joinM_nil
  | cons a rest ih =>
    obtain ⟨t, values, run⟩ := ends s a (holds a List.mem_cons_self)
    obtain ⟨r, left⟩ := ih (s := t) fun b mem => by
      rw [← after_of_ok run]
      exact stays s a b (holds b (List.mem_cons_of_mem _ mem))
    exact ⟨r, leaves_joinM_cons.2 ⟨t, ⟨values, run⟩, left⟩⟩

theorem total_returnedInstances (function : Option ObjectId) : Total (returnedInstances function) := by
  cases function with
  | none => exact .pure _
  | some object => exact .read fun _ => .joinM (fun _ => total_instancesOfType _) _

theorem total_textElements (cls : ValueId) : Total (textElements cls) :=
  .read fun _ => .ite (.pure _) (.ite (total_knownInstance _) (total_instancesOf cls))

private theorem all_returns
    (calls : ∀ s v, s.isDirect depth v = true → Returns (answerWithin depth v (.call args names) site) s)
    (items : List ValueId) {s : Session} (direct : ∀ v ∈ items, s.isDirect depth v = true) :
    Returns (ValueSet.joinM items fun v => answerWithin depth v (.call args names) site) s :=
  joinM_returns (P := fun s v => s.isDirect depth v = true) calls
    (fun s v _ direct => (Fixes.answerWithin depth v site s _).isDirect direct) items direct

/-- A call that looks nothing up comes to its end. -/
theorem call_returns (direct : s.isDirect depth v = true) (args : List ValueSet) (names : List String) (site : Site) :
    Returns (answerWithin depth v (.call args names) site) s := by
  induction depth generalizing s v args names with
  | zero => cases direct
  | succ depth ih =>
    show Returns (callOf (answerWithin depth) v args names site) s
    rw [callOf, returns_read]
    unfold isDirect at direct
    cases hv : s.form v <;> rw [hv] at direct <;> dsimp only [Form.passesCalls] at direct ⊢
    case boundMethod function self => exact ih (by simpa using direct) _ _
    case multiple members => exact all_returns (fun s v direct => ih direct _ _) members (List.all_eq_true.1 direct)
    case function f => exact returns_of_total (total_callFunction v f args names site) s
    case builtinFunction object => exact returns_of_total (total_returnedInstances (some object)) s
    case builtinMethod object => exact returns_of_total (.read fun _ => total_returnedInstances _) s
    all_goals first | exact returns_of_total (.pure _) s | cases direct

end Returns

/-- The method that an instance answers a question by, and what the method is called with. -/
def Question.method? : Question → Option (String × List ValueSet × List String)
  | .call args names => some ("__call__", args, names)
  | .iterator => some ("__iter__", [], [])
  | .index at_ => some ("__getitem__", [at_], [""])
  | .member _ | .elements => none

/-- A lookup of the method at this depth finds only what can be called directly. -/
def FindsDirect (s : Session) (depth : Nat) (v : ValueId) (method : String) (site : Site) : Prop :=
  ∃ found t, answerWithin depth v (.member method) site s = .ok found t ∧ ∀ w ∈ found.items, t.isDirect depth w = true

/-- What is found to iterate over the value can be asked for elements: all are iterators over known elements, or there
is one with a method that can be called directly. -/
def FindsIterators (s : Session) (depth : Nat) (v : ValueId) (site : Site) : Prop :=
  ∃ found t, answerWithin depth v .iterator site s = .ok found t ∧
    ((∀ w ∈ found.items, (t.form w).kind = .iterator) ∨
      ∃ w, found.items = [w] ∧ t.FindsDirect depth w t.nextMethod site)

section Decide

variable (s depth v) (method : String) (site : Site)

instance : Decidable (s.FindsDirect depth v method site) :=
  match run : answerWithin depth v (.member method) site s with
  | .ok found t => decidable_of_iff (∀ w ∈ found.items, t.isDirect depth w = true)
      ⟨fun direct => ⟨found, t, run, direct⟩, by rintro ⟨_, _, same, direct⟩; rw [run] at same; cases same; exact direct⟩
  | .error _ _ => isFalse (by rintro ⟨_, _, same, -⟩; rw [run] at same; cases same)

instance : Decidable (s.FindsIterators depth v site) :=
  match run : answerWithin depth v .iterator site s with
  | .ok found t => decidable_of_iff ((∀ w ∈ found.items, (t.form w).kind = .iterator) ∨
        ∃ w ∈ found.items, found.items = [w] ∧ t.FindsDirect depth w t.nextMethod site)
      ⟨fun h => ⟨found, t, run, h.imp_right fun ⟨w, _, rest⟩ => ⟨w, rest⟩⟩, by
        rintro ⟨_, _, same, h⟩
        rw [run] at same
        cases same
        exact h.imp_right fun ⟨w, single, finds⟩ => ⟨w, by rw [single]; exact List.mem_singleton_self w, single, finds⟩⟩
  | .error _ _ => isFalse (by rintro ⟨_, _, same, -⟩; rw [run] at same; cases same)

end Decide

section Methods

variable {q : Question} {method : String}

/-- A method that is found and can be called directly gives an answer. -/
theorem callMember_returns (finds : s.FindsDirect depth v method site) (args : List ValueSet) (names : List String) :
    Returns ((answerWithin depth).callMember v method args names site) s := by
  obtain ⟨found, t, looked, direct⟩ := finds
  refine (returns_bind_of_ok looked).2 ?_
  exact all_returns (fun s v direct => call_returns direct args names site) found.items direct

/-- An instance answers by its method, or by what is known of texts. -/
theorem instance_returns (self : (s.form v).isInstance = true) (asks : q.method? = some (method, args, names))
    (finds : s.FindsDirect depth v method site) : Returns (answerWithin (depth + 1) v q site) s := by
  have rule := callMember_returns finds args names
  show Returns (respond (answerWithin depth) v q site) s
  cases hv : s.form v with
  | builtinInstance cls =>
    cases q with
    | index at_ =>
      cases asks
      simp only [respond, indexOf, returns_read, hv]
      exact (returns_bind_total fun _ => .read fun _ => .ite (total_instancesOf cls) (.pure _)).2 rule
    | call | iterator =>
      cases asks
      simpa only [respond, callOf, iteratorOf, returns_read, hv] using rule
    | _ => cases asks
  | userInstance =>
    cases q with
    | call | iterator | index =>
      cases asks
      simpa only [respond, callOf, iteratorOf, indexOf, indexByMethod, returns_read, hv] using rule
    | _ => cases asks
  | _ =>
    rw [hv] at self
    cases self

/-- A class yields its instance once the initializer has been called. -/
theorem class_returns {self : ValueId} (made : userInstance v s = .ok (some self) t)
    (finds : t.FindsDirect depth self "__init__" site) (args : List ValueSet) (names : List String) :
    ∃ r, answerWithin (depth + 1) v (.call args names) site s = .ok (.single (some self)) r := by
  obtain ⟨r, values, called⟩ := callMember_returns finds args names
  refine ⟨r, ?_⟩
  show callOf (answerWithin depth) v args names site s = _
  cases hv : s.form v with
  | userClass c =>
    rw [callOf, read_run, hv]
    dsimp only
    rw [callClass, bind_of_ok made]
    exact bind_of_ok called
  | _ =>
    rw [userInstance, read_run, ← form, hv] at made
    cases made

/-- An iterator over known elements yields them. -/
theorem nextOf_iterator (kind : (s.form v).kind = .iterator) (site : Site) :
    Returns (nextOf (answerWithin (depth + 1)) v site) s := by
  rw [nextOf, returns_read, if_pos (show (s.value v).kind = .iterator from kind)]
  show Returns (elementsOf (answerWithin depth) v site) s
  rw [elementsOf, returns_read]
  cases hv : s.form v with
  | iterator type elements => exact returns_of_total (total_readAt elements site) s
  | _ =>
    rw [hv] at kind
    cases kind

/-- An iterator of the program yields what its method does. -/
theorem nextOf_method (finds : s.FindsDirect (depth + 1) v s.nextMethod site) :
    Returns (nextOf (answerWithin (depth + 1)) v site) s := by
  by_cases kind : (s.form v).kind = .iterator
  · exact nextOf_iterator kind site
  · rw [nextOf, returns_read, if_neg (show ¬ (s.value v).kind = .iterator from kind)]
    exact callMember_returns finds [] []

private theorem elementsByMethod_returns (finds : s.FindsIterators depth v site) :
    Returns (elementsByMethod (answerWithin depth) v site) s := by
  obtain ⟨found, t, iterates, each⟩ := finds
  cases depth with
  | zero => cases iterates
  | succ depth =>
    rw [elementsByMethod, returns_bind_of_ok iterates]
    rcases each with known | ⟨w, single, method⟩
    · refine joinM_returns (P := fun s w => (s.form w).kind = .iterator) (fun s w kind => nextOf_iterator kind site)
        (fun s w other kind => ?_) found.items known
      have there : other.index < s.values.size := index_lt_of_form fun same => by rw [same] at kind; cases kind
      exact ((Fixes.nextOf (depth + 1) w site s).kind other there).trans kind
    · rw [single]
      exact returns_joinM_single.2 (nextOf_method method)

/-- An instance yields what its iterators do, or pieces of text. -/
theorem elements_returns (self : (s.form v).isInstance = true) (finds : s.FindsIterators depth v site) :
    Returns (answerWithin (depth + 1) v .elements site) s := by
  have rule := elementsByMethod_returns finds
  show Returns (elementsOf (answerWithin depth) v site) s
  cases hv : s.form v with
  | builtinInstance cls =>
    simp only [elementsOf, returns_read, hv]
    exact (returns_bind_total fun _ => .read fun _ => .ite (total_textElements cls) (.pure _)).2 rule
  | userInstance => simpa only [elementsOf, returns_read, hv] using rule
  | _ =>
    rw [hv] at self
    cases self

end Methods

end Session

end Typeflow
