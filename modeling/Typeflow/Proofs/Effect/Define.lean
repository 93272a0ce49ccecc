import Typeflow.Proofs.Effect.Clear
import Typeflow.Proofs.Step

/-! What making units, functions and classes does. -/
namespace Typeflow.Session

def isGone (s : Session) (entry : Option EntryId) : Bool :=
  match entry with
  | none => false
  | some e => (s.entry e).removed

def withUnit (s : Session) (entry : Option EntryId) (scope : ScopeId) (body : Body) : Session :=
  { s with
    units := s.units.push ⟨entry, scope, body, s.isGone entry⟩
    liveUnits := s.liveUnits ++ [⟨s.units.size⟩]
    entries :=
      match entry with
      | none => s.entries
      | some e =>
        if s.isGone entry then s.entries
        else s.entries.modify e.index fun entry => { entry with units := entry.units ++ [⟨s.units.size⟩] } }

private theorem modify_push {α : Type} (xs : Array α) (a : α) (f : α → α) :
    (xs.push a).modify xs.size f = xs.push (f a) := by
  apply Array.ext
  · simp
  · intro i hi hj
    rw [Array.getElem_modify, Array.getElem_push, Array.getElem_push]
    simp only [Array.size_modify, Array.size_push] at hi
    by_cases h : i < xs.size
    · simp [h, Nat.ne_of_gt h]
    · simp [show xs.size = i by omega]

theorem newUnit_run (entry : Option EntryId) (scope : ScopeId) (body : Body) (s : Session) :
    newUnit entry scope body s = .ok ⟨s.units.size⟩ (s.withUnit entry scope body) := by
  cases entry with
  | none => rfl
  | some e =>
    let u : UnitId := ⟨s.units.size⟩
    let made : Session :=
      { s with units := s.units.push ⟨some e, scope, body, false⟩, liveUnits := s.liveUnits ++ [u] }
    have run : newUnit (some e) scope body s =
        (if (made.entry e).removed = true then retire u >>= fun _ => pure u
          else (updateEntry e fun entry => { entry with units := entry.units ++ [u] }) >>= fun _ =>
            pure u) made := rfl
    rw [run]
    cases h : (s.entry e).removed with
    | true =>
      have gone : s.isGone (some e) = true := h
      rw [if_pos (show (made.entry e).removed = true from h)]
      have retired : (retire u >>= fun _ => (pure u : Analysis UnitId)) made =
          .ok u { made with
            units := (s.units.push ⟨some e, scope, body, false⟩).modify s.units.size
              fun unit => { unit with retired := true } } := rfl
      rw [retired, modify_push]
      simp only [withUnit, gone, if_true]
      rfl
    | false =>
      have gone : s.isGone (some e) = false := h
      have present : ¬ (made.entry e).removed = true := by
        intro hr
        rw [show (made.entry e).removed = false from h] at hr
        cases hr
      rw [if_neg present]
      simp only [withUnit, gone]
      rfl

section Unit

variable (s : Session) (entry : Option EntryId) (scope : ScopeId) (body : Body)

theorem unit_withUnit (u : UnitId) :
    (s.withUnit entry scope body).unit u =
      if u.index = s.units.size then ⟨entry, scope, body, s.isGone entry⟩ else s.unit u := by
  simp only [Session.unit, withUnit, getD_push]

theorem entry_withUnit (e : EntryId) :
    (s.withUnit entry scope body).entry e =
      if entry = some e ∧ e.index < s.entries.size ∧ (s.entry e).removed = false then
        { s.entry e with units := (s.entry e).units ++ [⟨s.units.size⟩] }
      else s.entry e := by
  cases entry with
  | none => rw [if_neg (by simp)]; rfl
  | some f =>
    cases h : (s.entry f).removed with
    | true =>
      have gone : s.isGone (some f) = true := h
      have same : (s.withUnit (some f) scope body).entries = s.entries := by
        simp only [withUnit, gone, if_true]
      rw [Session.entry, same, if_neg]
      · rfl
      · rintro ⟨hf, -, hr⟩
        cases hf
        rw [h] at hr
        cases hr
    | false =>
      have gone : s.isGone (some f) = false := h
      have tracked : (s.withUnit (some f) scope body).entry e =
          { s with
            entries := s.entries.modify f.index
              fun entry => { entry with units := entry.units ++ [⟨s.units.size⟩] } : Session }.entry e := by
        rw [Session.entry, Session.entry]
        simp only [withUnit, gone]
        rfl
      rw [tracked, entry_modify]
      by_cases he : e = f
      · subst he
        simp only [true_and, h, and_true]
      · rw [if_neg fun hf => he hf.1, if_neg fun hf => he (Option.some.inj hf.1).symm]

theorem entries_withUnit : (s.withUnit entry scope body).entries.size = s.entries.size := by
  cases entry with
  | none => rfl
  | some e =>
    simp only [withUnit]
    split
    · rfl
    · simp

end Unit

def withCode (s : Session) (v : ValueId) (change : Code → Code) : Session :=
  s.setValue v { s.value v with form := (s.form v).mapCode change }

theorem form_withCode (s : Session) (v w : ValueId) (change : Code → Code) :
    (s.withCode v change).form w = if w = v then (s.form v).mapCode change else s.form w := by
  rw [withCode, form_setValue]
  by_cases hw : w = v
  · subst hw
    by_cases hs : w.index < s.values.size
    · simp [hs]
    · simp only [hs, and_false, if_false, if_true, form_of_le (Nat.le_of_not_lt hs)]
      rfl
  · simp [hw]

@[simp] theorem code?_mapCode (form : Form) (change : Code → Code) :
    (form.mapCode change).code? = form.code?.map change := by
  cases form <;> rfl

@[simp] theorem module?_mapCode (form : Form) (change : Code → Code) :
    (form.mapCode change).module? = form.module? := by
  cases form <;> rfl

@[simp] theorem kind_mapCode (form : Form) (change : Code → Code) :
    (form.mapCode change).kind = form.kind := by
  cases form <;> rfl

def withUnitFor (s : Session) (v : ValueId) (code : Code) (body : Body) : Session :=
  (s.withUnit code.entry code.scope body).withCode v fun code =>
    { code with unit := some ⟨s.units.size⟩ }

/-- A definition has got its unit, which is of no use if its module was removed. -/
structure Starts (v : ValueId) (e : EntryId) (body : Body) (scope : ScopeId) (s t : Session) :
    Prop where
  code : ∀ w, (t.form w).code? =
    if w = v then some ⟨some e, some body, scope, some ⟨s.units.size⟩⟩ else (s.form w).code?
  module : ∀ w, (t.form w).module? = (s.form w).module?
  kind : ∀ w, (t.form w).kind = (s.form w).kind
  values : t.values.size = s.values.size
  scopes : t.scopes = s.scopes
  records : t.records = s.records
  units : t.units.size = s.units.size + 1
  unit : ∀ u, t.unit u =
    if u.index = s.units.size then ⟨some e, scope, body, (s.entry e).removed⟩ else s.unit u
  entries : t.entries.size = s.entries.size
  entry : ∀ f, t.entry f =
    if f = e ∧ e.index < s.entries.size ∧ (s.entry e).removed = false then
      { s.entry f with units := (s.entry f).units ++ [⟨s.units.size⟩] }
    else s.entry f
  queue : t.queue = s.queue
  nextNode : t.nextNode = s.nextNode

theorem starts_withUnitFor {s : Session} {v : ValueId} {e : EntryId} {body : Body} {scope : ScopeId}
    (h : (s.form v).code? = some ⟨some e, some body, scope, none⟩) :
    Starts v e body scope s (s.withUnitFor v ⟨some e, some body, scope, none⟩ body) := by
  have forms : ∀ w, (s.withUnitFor v ⟨some e, some body, scope, none⟩ body).form w =
      if w = v then (s.form v).mapCode fun code => { code with unit := some ⟨s.units.size⟩ }
      else s.form w := fun w => form_withCode (s.withUnit (some e) scope body) v w _
  constructor
  case code =>
    intro w
    rw [forms]
    split
    · rw [code?_mapCode, h]
      rfl
    · rfl
  case module =>
    intro w
    rw [forms]
    split
    · next hw => rw [module?_mapCode, hw]
    · rfl
  case kind =>
    intro w
    rw [forms]
    split
    · next hw => rw [kind_mapCode, hw]
    · rfl
  case values => simp [withUnitFor, withCode, setValue, withUnit]
  case units => simp [withUnitFor, withCode, setValue, withUnit]
  case unit => exact unit_withUnit s (some e) scope body
  case entries => exact entries_withUnit s (some e) scope body
  case entry =>
    intro f
    refine (entry_withUnit s (some e) scope body f).trans ?_
    by_cases hf : f = e
    · subst hf
      simp only [true_and]
    · rw [if_neg fun h => hf (Option.some.inj h.1).symm, if_neg fun h => hf h.1]
  all_goals rfl

/-- The unit of a definition that still has a body is queued; it is made if need be. -/
theorem after_enqueueBody (v : ValueId) (place : QueueEnd) (s : Session) :
    ((∀ code, (s.form v).code? = some code → code.body = none) ∧ after (enqueueBody v place) s = s) ∨
      ∃ code body, (s.form v).code? = some code ∧ code.body = some body ∧
        ((∃ u, code.unit = some u ∧ after (enqueueBody v place) s = after (enqueue u place) s) ∨
          code.unit = none ∧ after (enqueueBody v place) s =
            after (enqueue ⟨s.units.size⟩ place) (s.withUnitFor v code body)) := by
  have none_of : unitOf v s = .ok none s → after (enqueueBody v place) s = s := by
    intro h
    rw [enqueueBody, after_bind_of_ok h]
    rfl
  cases hc : (s.form v).code? with
  | none =>
    refine .inl ⟨fun code h => ?_, none_of ?_⟩
    · cases h
    · simp [unitOf, read_run, hc, pure, EStateM.pure]
  | some code =>
    obtain ⟨entry, body?, scope, unit?⟩ := code
    cases body? with
    | none =>
      refine .inl ⟨fun code h => ?_, none_of ?_⟩
      · cases h
        rfl
      · simp [unitOf, read_run, hc, pure, EStateM.pure]
    | some body =>
      refine .inr ⟨_, body, rfl, rfl, ?_⟩
      cases unit? with
      | some u =>
        refine .inl ⟨u, rfl, ?_⟩
        have found : unitOf v s = .ok (some u) s := by
          simp [unitOf, read_run, hc, pure, EStateM.pure]
        rw [enqueueBody, after_bind_of_ok found]
      | none =>
        refine .inr ⟨rfl, ?_⟩
        have made : unitOf v s = .ok (some ⟨s.units.size⟩)
            (s.withUnitFor v ⟨entry, some body, scope, none⟩ body) := by
          have run : unitOf v s = (newUnit entry scope body >>= fun u =>
              (updateCode v fun code => { code with unit := some u }) >>= fun _ => pure (some u)) s := by
            simp only [unitOf, read_run, hc]
          rw [run, bind_of_ok (newUnit_run entry scope body s)]
          rfl
        rw [enqueueBody, after_bind_of_ok made]

end Typeflow.Session
