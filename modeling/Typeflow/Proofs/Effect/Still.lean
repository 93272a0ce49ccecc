import Typeflow.Proofs.Effect.Names
import Typeflow.Proofs.Step

/-! Most changes leave definitions, scopes, units and modules as they are and only queue more work. -/
namespace Typeflow

def Form.module? : Form → Option ProjectModule
  | .module p => some p
  | _ => none

/-- A record that a value has. -/
inductive Part where
  | returns
  | bases
  /-- The elements of a sequence or iterator. -/
  | elements
  | member (name : String)

def Form.record? : Form → Part → Option VarId
  | .function f, .returns => some f.returns
  | .userClass c, .bases => some c.bases
  | .sequence _ x, .elements | .iterator _ x, .elements => some x
  | .userInstance _ attributes, .member name => attributes.find? name
  | _, _ => none

theorem Form.record?_resolving (c : UserClass) (on : Bool) (part : Part) :
    (Form.userClass { c with resolving := on }).record? part = (Form.userClass c).record? part := by
  cases part <;> rfl

/-- The other attributes of an instance stay when it gets one more. -/
theorem Form.record?_insert {cls : ValueId} {attributes : NameMap VarId} {name : String} {x y : VarId}
    {part : Part} (free : attributes.find? name = none)
    (h : (Form.userInstance cls attributes).record? part = some x) :
    (Form.userInstance cls (attributes.insert name y)).record? part = some x := by
  cases part with
  | member other =>
    replace h : attributes.find? other = some x := h
    have fresh : other ≠ name := by
      rintro rfl
      rw [free] at h
      cases h
    change (attributes.insert name y).find? other = some x
    rw [NameMap.find?_insert, if_neg fresh, h]
  | _ => cases h

theorem Form.record?_mapCode (form : Form) (change : Code → Code) (part : Part) :
    (form.mapCode change).record? part = form.record? part := by
  cases form <;> cases part <;> rfl

private theorem Form.code?_of_scope? {form : Form} (h : form.scope? = none) : form.code? = none := by
  cases form <;> first | rfl | cases h

private theorem Form.module?_of_scope? {form : Form} (h : form.scope? = none) : form.module? = none := by
  cases form <;> first | rfl | cases h

namespace Session

/-- Only a class of the program has a mark to set. -/
theorem after_setResolving (cls : ValueId) (on : Bool) (s : Session) :
    after (setResolving cls on) s = s ∨
      ∃ c, s.form cls = .userClass c ∧ after (setResolving cls on) s =
        s.setValue cls { s.value cls with form := .userClass { c with resolving := on } } := by
  cases h : s.form cls with
  | userClass c =>
    refine .inr ⟨c, rfl, ?_⟩
    simp only [setResolving, after_read, h]
    rfl
  | _ =>
    refine .inl ?_
    simp only [setResolving, after_read, h]
    rfl

/-- Nothing was defined, and values were kept only for nodes for which that is allowed. -/
structure Still (keep : NodeId → Prop) (s t : Session) : Prop where
  code : ∀ v, (t.form v).code? = (s.form v).code?
  module : ∀ v, (t.form v).module? = (s.form v).module?
  values : s.values.size ≤ t.values.size
  kind : ∀ v, v.index < s.values.size → (t.form v).kind = (s.form v).kind
  owner : ∀ c, (t.scope c).owner = (s.scope c).owner
  nodes : ∀ c n, ¬ keep n → (t.scope c).nodeValues.lookup n = (s.scope c).nodeValues.lookup n
  scopes : t.scopes.size = s.scopes.size
  units : t.units = s.units
  entries : t.entries.size = s.entries.size
  entry : ∀ e, ∃ n, t.entry e = { s.entry e with version := n }
  nextNode : t.nextNode = s.nextNode
  kept : ∀ job ∈ s.queue.jobs, job ∈ t.queue.jobs
  origin : ∀ job ∈ t.queue.jobs,
    job ∈ s.queue.jobs ∨ s.isAlive job.unit = true ∧ job = s.job job.unit

namespace Still

variable {keep : NodeId → Prop} {s t r : Session}

theorem unit (h : Still keep s t) (u : UnitId) : t.unit u = s.unit u := by
  rw [Session.unit, Session.unit, h.units]

theorem isAlive (h : Still keep s t) (u : UnitId) : t.isAlive u = s.isAlive u := by
  rw [Session.isAlive, Session.isAlive, h.unit]

theorem job (h : Still keep s t) (u : UnitId) : t.job u = s.job u := by
  rw [Session.job, Session.job, h.unit]

/-- A change of records and of the queue, to which only units that may run were added. -/
theorem of_frame (frame : t = { s with records := t.records, queue := t.queue, metrics := t.metrics })
    (kept : ∀ job ∈ s.queue.jobs, job ∈ t.queue.jobs)
    (origin : ∀ job ∈ t.queue.jobs,
      job ∈ s.queue.jobs ∨ s.isAlive job.unit = true ∧ job = s.job job.unit) : Still keep s t where
  code _ := by rw [frame]; rfl
  module _ := by rw [frame]; rfl
  values := Nat.le_of_eq (by rw [frame])
  kind _ _ := by rw [frame]; rfl
  owner _ := by rw [frame]; rfl
  nodes _ _ _ := by rw [frame]; rfl
  scopes := by rw [frame]
  units := by rw [frame]
  entries := by rw [frame]
  entry _ := ⟨_, by rw [frame]; rfl⟩
  nextNode := by rw [frame]
  kept := kept
  origin := origin

theorem refl (s : Session) : Still keep s s := of_frame rfl (fun _ hj => hj) fun _ hj => .inl hj

theorem trans (h : Still keep s t) (g : Still keep t r) : Still keep s r where
  code v := (g.code v).trans (h.code v)
  module v := (g.module v).trans (h.module v)
  values := Nat.le_trans h.values g.values
  kind v hv := (g.kind v (Nat.lt_of_lt_of_le hv h.values)).trans (h.kind v hv)
  owner c := (g.owner c).trans (h.owner c)
  nodes c n hn := (g.nodes c n hn).trans (h.nodes c n hn)
  scopes := g.scopes.trans h.scopes
  units := g.units.trans h.units
  entries := g.entries.trans h.entries
  entry e := by
    obtain ⟨n, hn⟩ := h.entry e
    obtain ⟨m, hm⟩ := g.entry e
    exact ⟨m, by rw [hm, hn]⟩
  nextNode := g.nextNode.trans h.nextNode
  kept job hj := g.kept job (h.kept job hj)
  origin job hj := by
    rcases g.origin job hj with hj | hj
    · exact h.origin job hj
    · rw [h.isAlive, h.job] at hj
      exact .inr hj

theorem of_notifies {xs : List VarId} (h : Notifies xs s t) : Still keep s t :=
  of_frame h.frame h.kept h.origin

theorem of_queues {us : List UnitId} (h : Queues us s t) : Still keep s t :=
  of_frame (by rw [h.frame]) h.kept h.origin

theorem of_records (records : Array Variable) : Still keep s { s with records } :=
  of_frame rfl (fun _ hj => hj) fun _ hj => .inl hj

theorem of_bookkeeping (h : Bookkeeping s t) : Still keep s t where
  code _ := by rw [form, value, h.values]; rfl
  module _ := by rw [form, value, h.values]; rfl
  values := Nat.le_of_eq (by rw [h.values])
  kind _ _ := by rw [form, value, h.values]; rfl
  owner _ := by rw [scope, h.scopes]; rfl
  nodes _ _ _ := by rw [scope, h.scopes]; rfl
  scopes := by rw [h.scopes]
  units := h.units
  entries := by rw [h.entries]
  entry _ := ⟨_, by rw [Session.entry, h.entries]; rfl⟩
  nextNode := h.nextNode
  kept _ hj := by rwa [h.queue]
  origin _ hj := .inl (by rwa [h.queue] at hj)

theorem of_newValue (value : Value) (h : value.form.scope? = none) :
    Still keep s { s with values := s.values.push value } := by
  have made : ∀ v, ({ s with values := s.values.push value } : Session).form v =
      if v.index = s.values.size then value.form else s.form v := by
    intro v
    simp only [form, Session.value, getD_push]
    split <;> rfl
  have fresh : ∀ v : ValueId, v.index = s.values.size → s.form v = (default : Value).form :=
    fun v hv => form_of_le (Nat.le_of_eq hv.symm)
  constructor
  case code =>
    intro v
    rw [made]
    split
    · next hv => rw [Form.code?_of_scope? h, fresh v hv]; rfl
    · rfl
  case module =>
    intro v
    rw [made]
    split
    · next hv => rw [Form.module?_of_scope? h, fresh v hv]; rfl
    · rfl
  case kind =>
    intro v hv
    rw [made, if_neg (Nat.ne_of_lt hv)]
  case values => simp
  case entry => exact fun e => ⟨_, rfl⟩
  case kept => exact fun _ hj => hj
  case origin => exact fun _ hj => .inl hj
  all_goals intros; rfl

theorem of_setValue {v : ValueId} {value : Value} (code : value.form.code? = (s.form v).code?)
    (module : value.form.module? = (s.form v).module?) (kind : value.form.kind = (s.form v).kind) :
    Still keep s (s.setValue v value) := by
  constructor
  case code => exact congr_form_setValue Form.code? code
  case module => exact congr_form_setValue Form.module? module
  case kind => exact fun w _ => congr_form_setValue Form.kind kind w
  case values => simp [setValue]
  case entry => exact fun e => ⟨_, rfl⟩
  case kept => exact fun _ hj => hj
  case origin => exact fun _ hj => .inl hj
  all_goals intros; rfl

theorem of_setScope {c : ScopeId} {scope : Scope} (owner : scope.owner = (s.scope c).owner)
    (nodes : ∀ n, ¬ keep n → scope.nodeValues.lookup n = (s.scope c).nodeValues.lookup n) :
    Still keep s { s with scopes := s.scopes.setIfInBounds c.index scope } := by
  have look : ∀ d, ({ s with scopes := s.scopes.setIfInBounds c.index scope } : Session).scope d =
      if d = c ∧ c.index < s.scopes.size then scope else s.scope d := by
    intro d
    simp only [Session.scope, getD_setIfInBounds, ScopeId.index_inj]
  constructor
  case owner =>
    intro d
    rw [look]
    split
    · next h => rw [h.1, owner]
    · rfl
  case nodes =>
    intro d n hn
    rw [look]
    split
    · next h => rw [h.1, nodes n hn]
    · rfl
  case scopes => simp
  case values => exact Nat.le_refl _
  case entry => exact fun e => ⟨_, rfl⟩
  case kept => exact fun _ hj => hj
  case origin => exact fun _ hj => .inl hj
  all_goals intros; rfl

theorem setResolving (cls : ValueId) (on : Bool) : Still keep s (after (setResolving cls on) s) := by
  rcases after_setResolving cls on s with ends | ⟨c, h, ends⟩ <;> rw [ends]
  · exact refl s
  · exact of_setValue (by rw [h]; rfl) (by rw [h]; rfl) (by rw [h]; rfl)

theorem nameIn (c : ScopeId) (name : String) : Still keep s (after (nameIn c name) s) := by
  rcases after_nameIn c name s with ends | ⟨_, ends⟩ <;> rw [ends]
  · exact refl s
  · refine .trans (of_records (s.records.push { cap := (s.scope c).cap })) ?_
    exact of_setScope rfl fun _ _ => rfl

theorem addTypes (x : VarId) (values : ValueSet) : Still keep s (after (addTypes x values) s) := by
  rcases after_addTypes x values s with ends | ⟨record, _, told⟩
  · rw [ends]
    exact refl s
  · exact (of_records _).trans (of_notifies told)

end Still

/-- What reading or making an attribute of an instance does. -/
theorem after_attributeOf (v : ValueId) (name : String) (s : Session) :
    after (attributeOf v name) s = s ∨
      ∃ cls attributes, s.form v = .userInstance cls attributes ∧ attributes.find? name = none ∧
        after (attributeOf v name) s =
          ({ s with records := s.records.push { cap := s.options.limits.memberTypes } }).setValue v
            { s.value v with form := .userInstance cls (attributes.insert name ⟨s.records.size⟩) } := by
  cases h : s.form v with
  | userInstance cls attributes =>
    cases hx : attributes.find? name with
    | some x =>
      refine .inl ?_
      simp only [attributeOf, after_read, h, hx, after_pure]
    | none =>
      refine .inr ⟨cls, attributes, rfl, hx, ?_⟩
      simp only [attributeOf, after_read, h, hx]
      rfl
  | _ =>
    refine .inl ?_
    simp only [attributeOf, after_read, h, after_pure]

theorem Still.attributeOf {keep : NodeId → Prop} {s : Session} (v : ValueId) (name : String) :
    Still keep s (after (attributeOf v name) s) := by
  rcases after_attributeOf v name s with ends | ⟨cls, attributes, h, _, ends⟩ <;> rw [ends]
  · exact .refl s
  · refine (of_records _).trans (of_setValue ?_ ?_ ?_)
    · change _ = (s.form v).code?
      rw [h]
      rfl
    · change _ = (s.form v).module?
      rw [h]
      rfl
    · change _ = (s.form v).kind
      rw [h]
      rfl

theorem lookup_keepNodeValue (node other : NodeId) (value : ValueSet)
    (kept : List (NodeId × ValueSet)) :
    (keepNodeValue node value kept).lookup other =
      if other = node then some value else kept.lookup other := by
  induction kept with
  | nil =>
    by_cases h : other = node
    · simp [keepNodeValue, h]
    · have hb : (other == node) = false := by simpa using h
      simp [keepNodeValue, List.lookup_cons, hb, h]
  | cons pair rest ih =>
    obtain ⟨key, old⟩ := pair
    by_cases hk : node = key
    · subst hk
      by_cases h : other = node
      · simp [keepNodeValue, h]
      · have hb : (other == node) = false := by simpa using h
        simp [keepNodeValue, List.lookup_cons, hb, h]
    · rw [keepNodeValue, if_neg hk, List.lookup_cons, List.lookup_cons, ih]
      by_cases ho : other = key
      · subst ho
        simp [Ne.symm hk]
      · have hb : (other == key) = false := by simpa using ho
        rw [hb]

theorem Still.setNodeValue {keep : NodeId → Prop} {s : Session} (c : ScopeId) {node : NodeId}
    (values : ValueSet) (h : keep node) : Still keep s (after (setNodeValue c node values) s) := by
  refine of_setScope rfl fun n hn => ?_
  have other : n ≠ node := fun he => hn (he ▸ h)
  exact (lookup_keepNodeValue _ _ _ _).trans (if_neg other)

end Session

end Typeflow
