import Typeflow.Proofs.Members
import Typeflow.Proofs.Registry.Titles

/-! What is there of the replacement of a function stays while programs are evaluated: the wrapper that the function
keeps, the entry in the table of the module, and the name that is bound to the wrapper. Names go when their module is
queued, and then the unit that binds them waits to do it again. -/
namespace Typeflow.Session

variable {s t q : Session} {L : Licence} {R : Realm} {u : UnitId} {name : String} {v w : ValueId}

/-- Functions keep their wrappers, wrappers are what they were made, and what a module replaces stays replaced. Scopes
are of the kind that they were of and belong to their owners. -/
structure Upholds (s t : Session) : Prop extends Titles s t where
  wrapper : ∀ v w, (s.value v).kept? .wrapper = some w → (t.value v).kept? .wrapper = some w
  form : ∀ v wrapper, s.form v = .wrapper wrapper → t.form v = .wrapper wrapper
  replaced : ∀ m qualified, s.specialization? m qualified ≠ none → t.specialization? m qualified ≠ none
  scopes : s.scopes.size ≤ t.scopes.size
  kind : ∀ c, c.index < s.scopes.size → (t.scope c).kind = (s.scope c).kind
  owner : ∀ c, c.index < s.scopes.size → (t.scope c).owner = (s.scope c).owner

namespace Upholds

theorem of_values (values : t.values = s.values) (scopes : s.scopes.size ≤ t.scopes.size)
    (scope : ∀ c, c.index < s.scopes.size → (t.scope c).kind = (s.scope c).kind ∧ (t.scope c).owner = (s.scope c).owner) :
    Upholds s t := by
  have value : ∀ v, t.value v = s.value v := fun v => by rw [Session.value, values]; rfl
  refine { Titles.of_values values with
    wrapper := fun v w kept => ?_, form := fun v wrapper hv => ?_, replaced := fun m qualified found => ?_, scopes,
    kind := fun c hc => (scope c hc).1, owner := fun c hc => (scope c hc).2 }
  · rwa [value]
  · rwa [Session.form, value]
  · rwa [specialization?, value]

theorem of_same (values : t.values = s.values) (scopes : t.scopes = s.scopes) : Upholds s t :=
  of_values values (by rw [scopes]) fun c _ => by rw [Session.scope, scopes]; exact ⟨rfl, rfl⟩

theorem refl (s : Session) : Upholds s s := of_same rfl rfl

theorem trans (h : Upholds s t) (g : Upholds t q) : Upholds s q where
  toTitles := h.toTitles.trans g.toTitles
  wrapper v w kept := g.wrapper v w (h.wrapper v w kept)
  form v wrapper hv := g.form v wrapper (h.form v wrapper hv)
  replaced m qualified found := g.replaced m qualified (h.replaced m qualified found)
  scopes := Nat.le_trans h.scopes g.scopes
  kind c hc := (g.kind c (Nat.lt_of_lt_of_le hc h.scopes)).trans (h.kind c hc)
  owner c hc := (g.owner c (Nat.lt_of_lt_of_le hc h.scopes)).trans (h.owner c hc)

/-- Values that were there are as they were, but for what does not matter. -/
theorem of_looks (titles : Titles s t) (scopes : t.scopes = s.scopes)
    (wrapper : ∀ v w, (s.value v).kept? .wrapper = some w → (t.value v).kept? .wrapper = some w)
    (form : ∀ v wrapper, s.form v = .wrapper wrapper → t.form v = .wrapper wrapper)
    (replaced : ∀ m qualified, s.specialization? m qualified ≠ none → t.specialization? m qualified ≠ none) :
    Upholds s t :=
  { titles with
    wrapper, form, replaced, scopes := by rw [scopes],
    kind := fun c _ => by rw [Session.scope, scopes]; rfl, owner := fun c _ => by rw [Session.scope, scopes]; rfl }

theorem setScope {c : ScopeId} {scope : Scope} (kind : scope.kind = (s.scope c).kind)
    (owner : scope.owner = (s.scope c).owner) :
    Upholds s { s with scopes := s.scopes.setIfInBounds c.index scope } := by
  refine of_values rfl (by simp) fun d _ => ?_
  rw [scope_setIfInBounds]
  split
  · next own =>
    rw [own.1]
    exact ⟨kind, owner⟩
  · exact ⟨rfl, rfl⟩

theorem of_push {value : Value} (values : t.values = s.values.push value) (scopes : t.scopes = s.scopes) :
    Upholds s t := by
  have look : ∀ v, s.value v ≠ default → t.value v = s.value v := by
    intro v there
    rw [Session.value, values]
    exact (value_push s value v).trans (if_neg fun new => there (value_of_le (Nat.le_of_eq new.symm)))
  refine of_looks (.of_push values) scopes (fun v w kept => ?_) (fun v wrapper hv => ?_) fun m qualified found => ?_
  · rwa [look v fun same => by rw [same] at kept; cases kept]
  · rwa [Session.form, look v fun same => by rw [Session.form, same] at hv; cases hv]
  · rwa [specialization?, look m fun same => by rw [specialization?, same] at found; exact found rfl]

theorem setValue {value : Value} (title : value.name = (s.value v).name)
    (wrapper : ∀ w, (s.value v).kept? .wrapper = some w → value.kept? .wrapper = some w)
    (form : ∀ wrapper, s.form v = .wrapper wrapper → value.form = .wrapper wrapper)
    (replaced : ∀ qualified, (s.value v).table.find? qualified ≠ none → value.table.find? qualified ≠ none) :
    Upholds s (s.setValue v value) := by
  refine of_looks (.setValue title) rfl (fun o w kept => ?_) (fun o wr ho => ?_) fun m qualified found => ?_
  · rw [value_setValue]
    split
    · next own => exact wrapper w (own.1 ▸ kept)
    · exact kept
  · rw [form_setValue]
    split
    · next own => exact form wr (own.1 ▸ ho)
    · exact ho
  · rw [specialization?, value_setValue]
    split
    · next own => exact replaced qualified (own.1 ▸ found)
    · exact found

/-- A slot other than that of the wrapper is filled. -/
theorem keep {slot : Slot} (other : slot ≠ .wrapper) : Upholds s (s.setValue v ((s.value v).keep slot w)) := by
  refine setValue rfl (fun x kept => ?_) (fun _ => id) fun _ => id
  rw [Value.kept?_keep, if_neg other.symm]
  exact kept

theorem of_change (c : Change R s t) : Upholds s t := by
  cases c with
  | beside b => exact of_same b.values b.scopes
  | watch | newRecord | setRecord | noteRecord => exact of_same rfl rfl
  | newScope scope =>
    refine of_values rfl (by simp) fun c there => ?_
    rw [scope_push, if_neg (Nat.ne_of_lt there)]
    exact ⟨rfl, rfl⟩
  | setScope => exact setScope rfl rfl
  | make | makeObject | makeConstant | makeAggregate | makeBound => exact of_push rfl rfl
  | setForm v form kind own wraps =>
    refine setValue rfl (fun _ => id) (fun wrapper hv => absurd ?_ wraps) fun _ => id
    rw [hv]
    rfl
  | keep v slot other own unwrapped => exact keep unwrapped
  | makeInstance cls name description type form of there =>
    have made : Upholds s (s.withValue ⟨name, description, type, form, {}, []⟩) := of_push rfl rfl
    have same : (s.withValue ⟨name, description, type, form, {}, []⟩).value cls = s.value cls :=
      (value_push s _ cls).trans (if_neg (Nat.ne_of_lt there))
    rw [← same]
    exact made.trans (keep nofun)

theorem spans : Spans Upholds where
  refl := refl
  trans := trans
  change := of_change
  lookup c := c.through refl trans of_change fun b => of_same b.values b.scopes
  names _ _ := setScope rfl rfl
  replace s m qualified spec := by
    refine setValue rfl (fun _ => id) (fun _ => id) fun other found => ?_
    rw [NameMap.find?_insert]
    split
    · nofun
    · exact found
  wrap s v w free := by
    refine setValue rfl (fun x kept => ?_) (fun _ => id) fun _ => id
    rw [free] at kept
    cases kept
  ref _ _ _ := of_same rfl rfl

theorem of_touches (touches : Touches L R s t) : Upholds s t := spans.all (fun _ _ => spans.touch) touches

end Upholds

/-- What replaces a function is found under the same name. -/
theorem Upholds.qualifiedName (h : Upholds s t) (same : (t.unit u).scope = (s.unit u).scope)
    (there : (s.unit u).scope.index < s.scopes.size)
    (owned : ∀ owner, (s.scope (s.unit u).scope).owner = some owner → owner.index < s.values.size) (name : String) :
    t.qualifiedName u name = s.qualifiedName u name := by
  simp only [Session.qualifiedName, same, h.kind _ there, h.owner _ there]
  cases owner : (s.scope (s.unit u).scope).owner with
  | none => cases (s.scope (s.unit u).scope).kind <;> rfl
  | some v => cases (s.scope (s.unit u).scope).kind <;> simp only [h.name v (owned v owner)]

section Names

/-- A unit that may run and has the scope of a module is the one that runs the module. -/
theorem Coherent.heads_of_scope (h : Coherent s) (alive : s.isAlive u = true) {e : EntryId}
    (inRange : e.index < s.entries.size) (scope : (s.unit u).scope = s.moduleScopeOf e) :
    (s.entry e).unit = some u := by
  obtain ⟨c, module⟩ := h.modules e inRange
  rw [Coherent.moduleScopeOf_eq module] at scope
  have owner := (h.owned _ c (Form.scope?_of_module? module)).2
  cases entry : (s.unit u).entry with
  | none =>
    have free := (h.observer u alive entry).1
    rw [scope, owner] at free
    cases free
  | some f =>
    rcases (h.placed u f alive entry).role with ⟨heads, own⟩ | ⟨v, code⟩
    · have owner' := (h.owned _ _ (Form.scope?_of_module? own)).2
      rw [scope, owner] at owner'
      have same : (s.entry e).module = (s.entry f).module := Option.some.inj owner'
      rw [same] at module
      have entries := congrArg ProjectModule.entry (Option.some.inj (module.symm.trans own))
      rwa [show e = f from entries]
    · have owner' := (h.owned v _ (Form.scope?_of_code? code)).2
      rw [scope, owner] at owner'
      have same : (s.entry e).module = v := Option.some.inj owner'
      rw [← same, Form.code?_of_module? module] at code
      cases code

/-- The unit has its scope, still waits if it did, and waits if a name of its scope is gone. -/
structure Serves (u : UnitId) (s t : Session) : Prop where
  scope : (t.unit u).scope = (s.unit u).scope
  waits : s.queue.holds (s.job u) = true → t.queue.holds (t.job u) = true
  names : ∀ name x, s.findName? (s.unit u).scope name = some x →
    t.queue.holds (t.job u) = true ∨ t.findName? (s.unit u).scope name = some x

namespace Serves

theorem trans (h : Serves u s t) (g : Serves u t q) : Serves u s q where
  scope := g.scope.trans h.scope
  waits waits := g.waits (h.waits waits)
  names name x found := by
    rcases h.names name x found with waits | still
    · exact .inl (g.waits waits)
    · rw [← h.scope] at still ⊢
      exact g.names name x still

/-- Scopes other than that of a module that is queued lose no names. -/
theorem of_changes (changes : Changes R s t) {c : ScopeId} {x : VarId} (found : s.findName? c name = some x) :
    t.findName? c name = some x := by
  induction changes with
  | refl => exact found
  | tail _ change still =>
    cases change with
    | beside b => rwa [findName?, Session.scope, b.scopes]
    | newScope scope =>
      rw [findName?, scope_push, if_neg]
      · exact still
      · intro new
        rw [findName?, scope_of_le (Nat.le_of_eq new.symm)] at still
        cases still
    | setScope d names nodeValues kept =>
      rw [findName?, scope_setIfInBounds]
      split
      · next own => exact kept name x (own.1 ▸ still)
      · exact still
    | _ => exact still

private theorem of_enqueueEntry (sane : Sane s) (alive : s.isAlive u = true) (e : EntryId) {x : VarId}
    (found : s.findName? (s.unit u).scope name = some x) :
    (after (enqueueEntry e) s).queue.holds ((after (enqueueEntry e) s).job u) = true ∨
      (after (enqueueEntry e) s).findName? (s.unit u).scope name = some x := by
  rcases after_enqueueEntry e s with same | ⟨head, heads, ends⟩
  · exact .inr (by rw [same, found])
  have inRange : e.index < s.entries.size := Nat.lt_of_not_le fun outside => by
    rw [entry_of_le outside] at heads
    cases heads
  by_cases own : (s.unit u).scope = s.moduleScopeOf e
  · cases there : (s.entry e).removed with
    | true => exact .inr (by rw [show after (enqueueEntry e) s = s by simp [enqueueEntry, there], found])
    | false =>
      have runs := sane.coherent.heads_of_scope alive inRange own
      exact .inl (WorkQueue.holds_iff.2 ⟨_, waits_enqueueEntry sane there runs alive (.inl rfl), rfl, rfl⟩)
  · obtain ⟨c, module⟩ := sane.coherent.modules e inRange
    have form : s.form (s.entry e).module = .module ⟨e, c⟩ := by
      cases hf : s.form (s.entry e).module <;> rw [hf] at module <;> cases module
      rfl
    rw [Coherent.moduleScopeOf_eq module] at own
    obtain ⟨t, told, cleared⟩ := clearModule_of_form (s := s.withVersion e) form
    right
    rw [ends, (queues_enqueue head .back _).frame, cleared]
    have apart : (t.withoutNames c).scope (s.unit u).scope = t.scope (s.unit u).scope :=
      (scope_setIfInBounds t c _ _).trans (if_neg fun same => own same.1)
    have still : t.scope (s.unit u).scope = s.scope (s.unit u).scope := by
      rw [told.frame]
      rfl
    show ((t.withoutNames c).scope (s.unit u).scope).names.find? name = some x
    rw [apart, still]
    exact found

/-- What serves the unit is made of steps, and loses a name only when the unit waits. -/
theorem of_steps (sane : Sane s) (sound : L.Sound s) (alive : s.isAlive u = true) (steps : Steps L s t)
    (names : ∀ name x, s.findName? (s.unit u).scope name = some x →
      t.queue.holds (t.job u) = true ∨ t.findName? (s.unit u).scope name = some x) :
    Sane t ∧ L.Sound t ∧ t.isAlive u = true ∧ Serves u s t := by
  have same := Ages.unit_of_steps sane sound steps (index_lt_of_isAlive alive)
  have still : t.isAlive u = true := by rwa [isAlive, same]
  obtain ⟨sane', sound'⟩ := sane.steps sound steps
  exact ⟨sane', sound', still, by rw [same],
    (Minds.of_steps sane sound (index_lt_of_isAlive alive) steps).waits still, names⟩

/-- One after another. -/
theorem induct {T : Session → Session → Prop} (sane : Sane s) (sound : L.Sound s) (alive : s.isAlive u = true)
    (each : ∀ s t, Sane s → L.Sound s → s.isAlive u = true → T s t →
      Sane t ∧ L.Sound t ∧ t.isAlive u = true ∧ Serves u s t) (all : Relation.ReflTransGen T s t) :
    Sane t ∧ L.Sound t ∧ t.isAlive u = true ∧ Serves u s t := by
  induction all with
  | refl => exact ⟨sane, sound, alive, rfl, id, fun _ _ => .inr⟩
  | tail _ step ih =>
    obtain ⟨sane', sound', alive', before⟩ := ih
    obtain ⟨sane'', sound'', alive'', after⟩ := each _ _ sane' sound' alive' step
    exact ⟨sane'', sound'', alive'', before.trans after⟩

theorem of_furnish (sane : Sane s) (alive : s.isAlive u = true) (furnish : Furnish R s t) :
    Sane t ∧ noLicence.Sound t ∧ t.isAlive u = true ∧ Serves u s t := by
  have sound : ∀ s, noLicence.Sound s := fun _ _ _ licensed => False.elim licensed
  cases furnish with
  | steps steps fine => exact of_steps sane (sound s) alive steps fun name x => .inr ∘ of_changes fine
  | specialize m qualified spec =>
    have replaces : Steps noLicence s (s.withReplacement m qualified spec) :=
      .single (.amendValue m _ rfl fun _ kept => .inl kept)
    have first := of_steps sane (sound s) alive replaces fun name x => .inr
    rcases after_specializeModule m qualified spec s with ⟨-, ends⟩ | ⟨p, -, -, ends⟩ <;> rw [ends]
    · exact first
    · obtain ⟨sane', sound', alive', before⟩ := first
      obtain ⟨sane'', sound'', alive'', after⟩ := of_steps sane' sound' alive' (.single (.enqueueEntry p.entry))
        fun name x => of_enqueueEntry sane' alive' p.entry
      exact ⟨sane'', sound'', alive'', before.trans after⟩

theorem of_touch (sane : Sane s) (sound : L.Sound s) (alive : s.isAlive u = true) (touch : Touch L R s t) :
    Sane t ∧ L.Sound t ∧ t.isAlive u = true ∧ Serves u s t := by
  refine of_steps sane sound alive (steps_of_touch touch) fun name x found => ?_
  cases touch with
  | steps _ fine => exact .inr (of_changes fine found)
  | lookup c =>
    right
    exact c.through (T := fun s t => ∀ c, s.findName? c name = some x → t.findName? c name = some x) (fun _ _ => id)
      (fun h g c => g c ∘ h c) (fun change c => of_changes (.single change))
      (fun b c still => by rwa [findName?, Session.scope, b.scopes]) _ found
  | wrap | settle => exact .inr found
  | renew e => exact of_enqueueEntry sane alive e found
  | load r name object m =>
    have none : noLicence.Sound s := fun _ _ licensed => False.elim licensed
    obtain ⟨sane', sound', alive', before⟩ := of_steps sane none alive
      (Stepwise.updateRef r (fun ref => { ref with module := m, loaded := true }) s) fun name x => .inr
    obtain ⟨-, -, -, after⟩ := induct sane' sound' alive' (fun _ _ sane _ alive => of_furnish sane alive)
      (furnish_loadCell r name m s)
    exact (before.trans after).names _ x found

theorem of_touches (sane : Sane s) (sound : L.Sound s) (alive : s.isAlive u = true) (touches : Touches L R s t) :
    Sane t ∧ L.Sound t ∧ t.isAlive u = true ∧ Serves u s t :=
  induct sane sound alive (fun _ _ => of_touch) touches

end Serves

end Names

end Typeflow.Session
