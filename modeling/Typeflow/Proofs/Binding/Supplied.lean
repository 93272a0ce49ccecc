import Typeflow.Proofs.History

/-! What a call needs is there at every moment. The parameters of a function have their records in the scope
of the function, and what a function keeps for left-over arguments is a sequence whose elements have theirs. -/
namespace Typeflow

/-- The parameters of a function and the scope in which they are named. -/
def Form.signature? : Form → Option (List (String × ParamKind) × ScopeId)
  | .function f => some (f.params, f.scope)
  | _ => none

/-- A definition that gets its unit, or loses its tree, has the same signature. -/
theorem Form.signature?_mapCode (form : Form) (change : Code → Code)
    (scope : ∀ code, (change code).scope = code.scope) : (form.mapCode change).signature? = form.signature? := by
  cases form <;> simp [mapCode, signature?, scope]

private theorem Form.mapCode_sequence (change : Code → Code) (type : Option ValueId) (x : VarId) :
    (Form.sequence type x).mapCode change = .sequence type x := rfl

private theorem Form.scope?_of_signature? {form : Form} {params : List (String × ParamKind)} {c : ScopeId}
    (h : form.signature? = some (params, c)) : form.scope? = some c := by
  cases form <;> first | cases h; rfl | cases h

namespace Session

variable {s t r : Session} {L : Licence}

/-- Names have records, parameters have names, and left-over arguments have their sequence. -/
structure Supplied (s : Session) : Prop where
  recorded : ∀ c name x, s.findName? c name = some x → x.index < s.records.size
  named : ∀ v params c, (s.form v).signature? = some (params, c) →
    ∀ p ∈ params, ∃ x, s.findName? c p.1 = some x
  rest : ∀ v w, (s.value v).kept? .rest = some w → s.HasElements w

/-- No function loses a name, and what is new has what a call needs. -/
structure Supplies (s t : Session) : Prop where
  records : s.records.size ≤ t.records.size
  found : ∀ c name x, t.findName? c name = some x → s.findName? c name = some x ∨ x.index < t.records.size
  names : ∀ v params c, (s.form v).signature? = some (params, c) →
    ∀ name x, s.findName? c name = some x → t.findName? c name = some x
  signature : ∀ v params c, (s.form v).signature? = some (params, c) →
    (t.form v).signature? = some (params, c)
  functions : ∀ v params c, (t.form v).signature? = some (params, c) →
    (s.form v).signature? = some (params, c) ∨ ∀ p ∈ params, ∃ x, t.findName? c p.1 = some x
  sequences : ∀ v type x, s.form v = .sequence type x → t.form v = .sequence type x
  rest : ∀ v w, (t.value v).kept? .rest = some w → (s.value v).kept? .rest = some w ∨ t.HasElements w

namespace Supplies

theorem hasElements (h : Supplies s t) {w : ValueId} (there : s.HasElements w) : t.HasElements w := by
  obtain ⟨type, x, form, size⟩ := there
  exact ⟨type, x, h.sequences w type x form, Nat.lt_of_lt_of_le size h.records⟩

theorem supplied (h : Supplies s t) (before : Supplied s) : Supplied t where
  recorded c name x hx := by
    rcases h.found c name x hx with old | there
    · exact Nat.lt_of_lt_of_le (before.recorded c name x old) h.records
    · exact there
  named v params c sig p hp := by
    rcases h.functions v params c sig with old | new
    · obtain ⟨x, hx⟩ := before.named v params c old p hp
      exact ⟨x, h.names v params c old p.1 x hx⟩
    · exact new p hp
  rest v w kept := by
    rcases h.rest v w kept with old | there
    · exact h.hasElements (before.rest v w old)
    · exact there

theorem trans (h : Supplies s t) (g : Supplies t r) : Supplies s r where
  records := Nat.le_trans h.records g.records
  found c name x hx := by
    rcases g.found c name x hx with mid | there
    · exact (h.found c name x mid).imp_right fun there => Nat.lt_of_lt_of_le there g.records
    · exact .inr there
  names v params c sig name x hx :=
    g.names v params c (h.signature v params c sig) name x (h.names v params c sig name x hx)
  signature v params c sig := g.signature v params c (h.signature v params c sig)
  functions v params c sig := by
    rcases g.functions v params c sig with mid | new
    · refine (h.functions v params c mid).imp_right fun named p hp => ?_
      obtain ⟨x, hx⟩ := named p hp
      exact ⟨x, g.names v params c mid p.1 x hx⟩
    · exact .inr new
  sequences v type x form := g.sequences v type x (h.sequences v type x form)
  rest v w kept := by
    rcases g.rest v w kept with mid | there
    · exact (h.rest v w mid).imp_right g.hasElements
    · exact .inr there

/-- A change of names and records that loses no name. -/
theorem of_values_eq (values : t.values = s.values) (records : s.records.size ≤ t.records.size)
    (found : ∀ c name x, t.findName? c name = some x → s.findName? c name = some x ∨ x.index < t.records.size)
    (names : ∀ v params c, (s.form v).signature? = some (params, c) →
      ∀ name x, s.findName? c name = some x → t.findName? c name = some x) : Supplies s t := by
  have value : ∀ v, t.value v = s.value v := fun v => by rw [Session.value, values]; rfl
  have form : ∀ v, t.form v = s.form v := fun v => congrArg Value.form (value v)
  refine ⟨records, found, names, ?_, ?_, ?_, ?_⟩ <;> simp only [form, value]
  · exact fun _ _ _ sig => sig
  · exact fun _ _ _ sig => .inl sig
  · exact fun _ _ _ same => same
  · exact fun _ _ kept => .inl kept

/-- A change of anything else. -/
theorem of_same (values : t.values = s.values) (names : ∀ c, (t.scope c).names = (s.scope c).names)
    (records : s.records.size ≤ t.records.size) : Supplies s t := by
  have find : ∀ c name, t.findName? c name = s.findName? c name := fun c name => by
    rw [findName?, names, findName?]
  refine of_values_eq values records ?_ ?_ <;> simp only [find]
  · exact fun _ _ _ hx => .inl hx
  · exact fun _ _ _ _ _ _ hx => hx

theorem of_scopes (values : t.values = s.values) (scopes : t.scopes = s.scopes)
    (records : s.records.size ≤ t.records.size) : Supplies s t :=
  of_same values (fun c => by rw [scope, scopes]; rfl) records

theorem refl (s : Session) : Supplies s s := of_scopes rfl rfl (Nat.le_refl _)

theorem of_bookkeeping (h : Bookkeeping s t) : Supplies s t :=
  of_scopes h.values h.scopes (Nat.le_of_eq (by rw [h.records]))

theorem setScope {c : ScopeId} {scope : Scope} (names : scope.names = (s.scope c).names) :
    Supplies s { s with scopes := s.scopes.setIfInBounds c.index scope } := by
  refine of_same rfl (fun d => ?_) (Nat.le_refl _)
  simp only [Session.scope, getD_setIfInBounds]
  split
  · next own => rw [names, ScopeId.index_inj.1 own.1]; rfl
  · rfl

private theorem pushScope {scope : Scope} (bare : scope.names = {}) :
    Supplies s { s with scopes := s.scopes.push scope } := by
  refine of_same rfl (fun d => ?_) (Nat.le_refl _)
  rw [scope_push]
  split
  · next new => rw [bare, scope_of_le (Nat.le_of_eq new.symm)]; rfl
  · rfl

/-- A change of values that leaves signatures and sequences. -/
theorem of_forms (scopes : t.scopes = s.scopes) (records : t.records = s.records)
    (signature : ∀ v, (t.form v).signature? = (s.form v).signature?)
    (sequences : ∀ v type x, s.form v = .sequence type x → t.form v = .sequence type x)
    (rest : ∀ v w, (t.value v).kept? .rest = some w → (s.value v).kept? .rest = some w ∨ t.HasElements w) :
    Supplies s t := by
  have find : ∀ c name, t.findName? c name = s.findName? c name := fun c name => by
    rw [findName?, scope, scopes, findName?, scope]
  refine ⟨Nat.le_of_eq (by rw [records]), ?_, ?_, ?_, ?_, sequences, rest⟩ <;> simp only [find, signature]
  · exact fun _ _ _ hx => .inl hx
  · exact fun _ _ _ _ _ _ hx => hx
  · exact fun _ _ _ sig => sig
  · exact fun _ _ _ sig => .inl sig

theorem setValue {v : ValueId} {value : Value} (signature : value.form.signature? = (s.form v).signature?)
    (sequence : ∀ type x, s.form v = .sequence type x → value.form = .sequence type x)
    (rest : ∀ w, value.kept? .rest = some w → (s.value v).kept? .rest = some w ∨ s.HasElements w) :
    Supplies s (s.setValue v value) := by
  have kept : ∀ w type x, s.form w = .sequence type x → (s.setValue v value).form w = .sequence type x := by
    intro w type x form
    rw [form_setValue]
    split
    · next own => exact sequence type x (own.1 ▸ form)
    · exact form
  refine of_forms rfl rfl (congr_form_setValue Form.signature? signature) kept fun u w hw => ?_
  rw [value_setValue] at hw
  split at hw
  · next own =>
    rw [own.1]
    exact (rest w hw).imp_right fun ⟨type, x, form, size⟩ => ⟨type, x, kept w type x form, size⟩
  · exact .inl hw

theorem withCode (v : ValueId) (change : Code → Code) (scope : ∀ code, (change code).scope = code.scope) :
    Supplies s (s.withCode v change) :=
  setValue (Form.signature?_mapCode _ change scope) (fun type x form => by rw [form, Form.mapCode_sequence])
    fun _ kept => .inl kept

private theorem pushValue {value : Value} (plain : value.form.signature? = none)
    (free : value.kept? .rest = none) : Supplies s { s with values := s.values.push value } := by
  have look : ∀ v, ({ s with values := s.values.push value } : Session).value v =
      if v.index = s.values.size then value else s.value v := fun v => getD_push _ _ _ _
  have blank : ∀ v : ValueId, v.index = s.values.size → s.value v = default :=
    fun v new => value_of_le (Nat.le_of_eq new.symm)
  refine of_forms rfl rfl (fun v => ?_) (fun v type x form => ?_) fun v w kept => ?_
  · rw [Session.form, look, Session.form]
    split
    · next new => rw [plain, blank v new]; rfl
    · rfl
  · rw [Session.form, look, if_neg, ← Session.form, form]
    intro new
    rw [Session.form, blank v new] at form
    cases form
  · rw [look] at kept
    split at kept
    · rw [free] at kept
      cases kept
    · exact .inl kept

theorem setResolving (cls : ValueId) (on : Bool) : Supplies s (after (setResolving cls on) s) := by
  rcases after_setResolving cls on s with ends | ⟨c, form, ends⟩ <;> rw [ends]
  · exact refl s
  · exact setValue (by rw [form]; rfl) (by rw [form]; rintro _ _ ⟨⟩) fun _ kept => .inl kept

theorem newVariable (cap : Nat) : Supplies s { s with records := s.records.push { cap } } :=
  of_scopes rfl rfl (by simp)

theorem attributeOf (v : ValueId) (name : String) : Supplies s (after (attributeOf v name) s) := by
  rcases after_attributeOf v name s with ends | ⟨cls, attributes, form, -, ends⟩ <;> rw [ends]
  · exact refl s
  · refine (newVariable s.options.limits.memberTypes).trans
      (setValue ?_ (fun type x sequence => ?_) fun _ kept => .inl kept)
    · exact (congrArg Form.signature? form).symm
    · exact nomatch form.symm.trans sequence

theorem of_fills (h : Fills s t) : Supplies s t :=
  of_values_eq (by rw [h.frame]) h.records h.found fun _ _ c _ => h.names c

theorem of_notifies {xs : List VarId} (h : Notifies xs s t) : Supplies s t :=
  of_scopes (by rw [h.frame]) (by rw [h.frame]) (Nat.le_of_eq h.size.symm)

theorem addTypes (x : VarId) (values : ValueSet) : Supplies s (after (addTypes x values) s) := by
  rcases addTypes_cases x values s with ⟨-, kept⟩ | ⟨record, -, told⟩
  · rw [after_of_ok kept]
    exact refl s
  · let grown : Session := { s with records := s.records.setIfInBounds x.index record }
    have more : Supplies s grown := of_scopes rfl rfl (by simp [grown])
    rw [after_of_ok told]
    exact more.trans (of_notifies (notifies_notifyReaders x grown))

theorem enqueue (u : UnitId) (place : QueueEnd) : Supplies s (after (enqueue u place) s) := by
  rw [(queues_enqueue u place s).frame]
  exact of_scopes rfl rfl (Nat.le_refl _)

/-- The names of a module are not in the scope of any function. -/
theorem clearModule (h : Coherent s) (m : ValueId) : Supplies s (after (clearModule m) s) := by
  rcases after_clearModule m s with ends | ⟨p, t, module, told, ends⟩ <;> rw [ends]
  · exact refl s
  · have find : ∀ c name, (t.withoutNames p.scope).findName? c name =
        if c = p.scope ∧ p.scope.index < t.scopes.size then none else t.findName? c name := by
      intro c name
      simp only [findName?, scope, withoutNames, getD_setIfInBounds, ScopeId.index_inj]
      split <;> rfl
    have form : ∀ v, t.form v = s.form v := fun v => by rw [told.frame]; rfl
    refine (of_notifies told).trans (of_values_eq rfl (Nat.le_refl _) (fun c name x hx => ?_) ?_)
    · rw [find] at hx
      split at hx
      · cases hx
      · exact .inl hx
    · intro v params c sig name x hx
      rw [find, if_neg, hx]
      rintro ⟨rfl, -⟩
      rw [form] at sig
      have own := (h.owned v _ (Form.scope?_of_signature? sig)).2
      have cleared := (h.owned m _ (by rw [module]; rfl)).2
      obtain rfl : v = m := Option.some.inj (own.symm.trans cleared)
      rw [module] at sig
      cases sig

theorem withUnit (entry : Option EntryId) (scope : ScopeId) (body : Body) :
    Supplies s (s.withUnit entry scope body) := of_scopes rfl rfl (Nat.le_refl _)

theorem enqueueBody (v : ValueId) (place : QueueEnd) : Supplies s (after (enqueueBody v place) s) := by
  rcases after_enqueueBody v place s with ⟨-, ends⟩ | ⟨code, body, -, -, ⟨w, -, ends⟩ | ⟨-, ends⟩⟩ <;> rw [ends]
  · exact refl s
  · exact enqueue w place
  · have made : Supplies s (s.withUnitFor v code body) := (withUnit _ _ _).trans (withCode v _ fun _ => rfl)
    exact made.trans (enqueue _ place)

theorem enqueueEntry (h : Coherent s) (e : EntryId) : Supplies s (after (enqueueEntry e) s) := by
  rcases after_enqueueEntry e s with ends | ⟨u, -, ends⟩ <;> rw [ends]
  · exact refl s
  · have versioned : Supplies s (s.withVersion e) := of_scopes rfl rfl (Nat.le_refl _)
    have counted : Still (fun _ => False) s (s.withVersion e) := .withVersion e
    exact (versioned.trans (clearModule (h.still counted) _)).trans (enqueue u .back)

theorem of_defines {kind : ValueKind} {u : UnitId} {body : Body} (h : Defines kind u body s t) :
    Supplies s t := by
  have older : ∀ v, s.form v ≠ (default : Value).form → v.index ≠ s.values.size :=
    fun v made => Nat.ne_of_lt (index_lt_of_form made)
  refine ⟨h.records, h.found, fun _ _ c _ => h.names c, ?_, ?_, ?_, ?_⟩
  · intro v params c sig
    rwa [h.form v (older v fun same => by rw [same] at sig; cases sig)]
  · intro v params c sig
    by_cases new : v.index = s.values.size
    · obtain rfl : v = ⟨s.values.size⟩ := ValueId.index_inj.1 new
      refine .inr ?_
      cases form : t.form ⟨s.values.size⟩ with
      | function f =>
        rw [form] at sig
        cases sig
        exact h.params f form
      | _ =>
        rw [form] at sig
        cases sig
    · rw [h.form v new] at sig
      exact .inl sig
  · intro v type x form
    rwa [h.form v (older v fun same => by rw [same] at form; cases form)]
  · intro v w kept
    by_cases new : v.index = s.values.size
    · obtain rfl : v = ⟨s.values.size⟩ := ValueId.index_inj.1 new
      rw [Value.kept?, h.bare] at kept
      cases kept
    · rw [h.value v new] at kept
      exact .inl kept

theorem of_step (h : Coherent s) (step : Step L s t) : Supplies s t := by
  have defined : ∀ {kind : ValueKind} {w : UnitId} {body : Body} {make : Analysis ValueId},
      Makes kind w body make → Supplies s (after (definitionAt w body.node kind make) s) := by
    intro kind w body make makes
    rcases definitionAt_run makes s with ⟨values, -, run⟩ | ⟨-, t, run, defines⟩ <;> rw [after_of_ok run]
    · exact refl s
    · exact of_defines defines
  cases step with
  | bookkeep h => exact of_bookkeeping h
  | makeValue value plain free =>
    refine pushValue ?_ free
    cases form : value.form <;> first | rfl | (rw [form] at plain; cases plain)
  | amendValue v value same rest => exact setValue (by rw [same]) (fun type x form => same.trans form) rest
  | resolve cls on => exact setResolving cls on
  | attributeOf v name => exact attributeOf v name
  | newVariable cap => exact newVariable cap
  | nameIn scope name => exact of_fills (.nameIn scope name s)
  | addTypes x values => exact addTypes x values
  | addReader x reader => exact of_scopes rfl rfl (by simp [addReader])
  | addAssignment x place => exact of_fills (.addAssignment x place s)
  | addReference x place => exact of_fills (.addReference x place s)
  | keepValue scope node values h => exact setScope rfl
  | enqueue v place => exact enqueue v place
  | clearModule m => exact clearModule h m
  | enqueueBody v place => exact enqueueBody v place
  | enqueueEntry e => exact enqueueEntry h e
  | defineFunction w body name params h kind => exact defined (makes_newFunction w body name params)
  | defineClass w body name h kind => exact defined (makes_newClass w body name)

theorem of_retires {e : EntryId} {detaching : Bool} (h : Retires e detaching s t) : Supplies s t := by
  refine of_forms (by rw [h.frame]) (by rw [h.frame]) (fun v => ?_) (fun v type x form => ?_)
    fun v w kept => ?_
  · rw [h.form]
    split
    · exact Form.signature?_mapCode _ cut fun _ => rfl
    · rfl
  · rw [h.form, form]
    split <;> rfl
  · rw [Value.kept?, h.kept] at kept
    exact .inl kept

theorem replaceTree (e : EntryId) (tree : Option Tree) : Supplies s (after (replaceTree e tree) s) := by
  obtain ⟨r, retires, ends⟩ := after_replaceTree e tree s
  have changed : Supplies s (s.withTree e (s.numbered tree).1 (s.numbered tree).2) :=
    of_scopes rfl rfl (Nat.le_refl _)
  have emptied : Supplies r (r.withoutNodeValues (r.moduleScopeOf e)) := setScope rfl
  have first := (changed.trans (of_retires retires)).trans emptied
  rw [ends]
  split
  · exact first
  · exact first.trans (of_scopes rfl rfl (Nat.le_refl _))

theorem removeModule (h : Coherent s) (e : EntryId) : Supplies s (after (removeModule (some e)) s) := by
  rcases after_removeModule e s with ⟨-, ends⟩ | ⟨b, r, begins, retires, closes⟩
  · rw [ends]
    exact refl s
  · have idle : Coherent r := ((h.bookkeeping begins).retires
      (fun entry => { entry with removed := true, unit := none })
      (fun _ => rfl) (fun _ => rfl) (fun _ => rfl) (fun _ _ => rfl) (.inr fun _ => rfl) retires).1
    have marked : Supplies b (b.withoutEntry e) := of_scopes rfl rfl (Nat.le_refl _)
    exact ((((of_bookkeeping begins).trans marked).trans (of_retires retires)).trans (clearModule idle _)).trans
      (of_bookkeeping closes)

theorem of_steps (sane : Sane s) (sound : L.Sound s) (steps : Steps L s t) : Supplies s t :=
  sane.steps_induct sound steps (refl s) fun _ _ sane _ next supplies =>
    supplies.trans (of_step sane.coherent next)

theorem begun (queue : WorkQueue) (u : UnitId) : Supplies s (s.begun queue u) :=
  of_scopes rfl rfl (Nat.le_refl _)

theorem of_move {es : List Event} (sane : Sane s) (h : Move s es t) : Supplies s t := by
  cases h with
  | change foreign steps => exact of_steps sane (fun u body hd => (foreign.define u body hd).elim) steps
  | addEntry name path =>
    have opened : Supplies s { s with
        scopes := s.scopes.push { owner := some ⟨s.values.size⟩, cap := s.options.limits.variableTypes } } :=
      pushScope rfl
    exact (opened.trans (pushValue rfl rfl)).trans (of_scopes rfl rfl (Nat.le_refl _))
  | observe =>
    have opened : Supplies s { s with scopes := s.scopes.push {} } := pushScope rfl
    exact opened.trans (of_scopes rfl rfl (Nat.le_refl _))
  | replaceTree e tree inRange => exact replaceTree e tree
  | removeModule e => exact removeModule sane.coherent e
  | release =>
    obtain ⟨liveUnits, watchers, metrics, ends⟩ := after_releaseRetired s
    rw [ends]
    exact of_scopes rfl rfl (Nat.le_refl _)
  | turn job queue hp alive =>
    have start := sane.begun hp
    exact (begun queue job.unit).trans (of_steps start (start.licence_sound alive) (steps_runBody job.unit _))
  | _ => exact of_scopes rfl rfl (Nat.le_refl _)

theorem of_moves {es : List Event} (sane : Sane s) (h : Moves s es t) : Supplies s t :=
  sane.moves_induct (P := fun _ t => Supplies s t) h (refl s) fun _ _ _ _ sane last supplies =>
    supplies.trans (of_move sane last)

end Supplies

/-- A session as it is at some moment of a life: between two moves, or in the middle of a turn. -/
inductive Moment (s : Session) : Session → Prop
  | between {es : List Event} {t : Session} (moves : Moves s es t) : Moment s t
  | within {es : List Event} {q t : Session} {job : Job} {queue : WorkQueue} (moves : Moves s es q)
      (popped : q.queue.pop? = some (job, queue)) (alive : q.isAlive job.unit = true)
      (steps : Steps (licence job.unit (q.unit job.unit).body) (q.begun queue job.unit) t) : Moment s t

theorem Sane.moment (h : Sane s) (moment : Moment s t) : Sane t := by
  cases moment with
  | between moves => exact h.moves moves
  | within moves popped alive steps =>
    exact (((h.moves moves).begun popped).steps ((h.moves moves).licence_sound alive) steps).1

theorem Supplied.moment (h : Supplied s) (sane : Sane s) (moment : Moment s t) : Supplied t := by
  cases moment with
  | between moves => exact (Supplies.of_moves sane moves).supplied h
  | within moves popped alive steps =>
    have start := (sane.moves moves).begun popped
    have sound := (sane.moves moves).licence_sound alive
    exact (((Supplies.of_moves sane moves).trans (.begun _ _)).trans (.of_steps start sound steps)).supplied h

/-- In every history calls find what they need, whenever they are made. -/
theorem supplied_of_history {options : Options} {host : Host} {hostRequests : List Request} {first : Session}
    (made : create options host hostRequests = .ok first) {ops : List Operation} (fits : Fitting ops first)
    (moment : Moment (afterAll ops first) s) : Sane s ∧ Supplied s := by
  have blank : Supplied (blank options host hostRequests) :=
    ⟨by rintro _ _ _ ⟨⟩, by rintro _ _ _ ⟨⟩, by rintro _ _ ⟨⟩⟩
  have begins := sane_blank options host hostRequests
  have created := (Supplies.of_moves begins (moves_create made)).supplied blank
  have sane := begins.moves (moves_create made)
  have moves := moves_of_fitting ops sane fits
  have ready := sane.moves moves
  exact ⟨ready.moment moment, ((Supplies.of_moves sane moves).supplied created).moment ready moment⟩

end Session

end Typeflow
