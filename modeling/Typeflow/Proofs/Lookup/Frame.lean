import Typeflow.Proofs.Generation.Reload
import Typeflow.Proofs.Growth
import Typeflow.Proofs.Realm.Touch
import Typeflow.Session.Answer

/-! What lookups of members leave alone: no record gains a type by them, no value comes to refer to others, and
every class is marked or not as it was. -/
namespace Typeflow

/-- The form of a value without what lookups note in it: the mark of a class and the attributes of an
instance. -/
def Form.outline : Form → Form
  | .userClass c => .userClass { c with resolving := false }
  | .userInstance cls _ => .userInstance cls {}
  | form => form

private theorem Form.scope?_outline (form : Form) : form.outline.scope? = form.scope? := by
  cases form <;> rfl

private theorem Form.kind_outline (form : Form) : form.outline.kind = form.kind := by
  cases form <;> rfl

private theorem Form.outline_of_kind {form : Form} (cls : form.kind ≠ .userClass) (self : form.kind ≠ .userInstance) :
    form.outline = form := by
  cases form with
  | userClass c => exact absurd rfl cls
  | userInstance => exact absurd rfl self
  | _ => rfl

private theorem Form.eq_module_of_outline {form : Form} {p : ProjectModule} (h : form.outline = .module p) :
    form = .module p := by
  cases form with
  | userClass | userInstance => cases h
  | _ => exact h

/-- Whether the form is that of a class that is being searched. -/
def Form.marked : Form → Bool
  | .userClass c => c.resolving
  | _ => false

private theorem Form.marked_of_scope? {form : Form} (h : form.scope? = none) : form.marked = false := by
  cases form with
  | userClass c => cases h
  | _ => rfl

namespace Session

theorem isResolving_eq (s : Session) (v : ValueId) : s.isResolving v = (s.form v).marked := by
  unfold isResolving Form.marked
  cases s.form v <;> rfl

private theorem index_lt_of_scope? {s : Session} {v : ValueId} (h : (s.form v).scope? ≠ none) :
    v.index < s.values.size := index_lt_of_form fun same => h (by rw [same]; rfl)

/-- The instance that a class keeps. -/
def exemplar? (s : Session) (cls : ValueId) : Found := (s.value cls).kept? .instance_

def Inner (s : Session) (c : ScopeId) : Prop := ∀ m p, s.form m = .module p → p.scope ≠ c

def Lacks (s : Session) (c : ScopeId) (name : String) : Prop :=
  ∀ x, s.findName? c name = some x → (s.types x).isEmpty = true

/-- The types that a class has under a name by itself. -/
def ownTypes (s : Session) (c : UserClass) (name : String) : ValueSet :=
  match s.findName? c.scope name with
  | some x => s.types x
  | none => .empty

/-- Values refer to one another as before, and classes have types under the same names. A class may have been
marked, and a builtin class may have got its instance. -/
structure Links (s t : Session) : Prop where
  size : s.values.size ≤ t.values.size
  outline : ∀ v, v.index < s.values.size → (t.form v).outline = (s.form v).outline
  types : ∀ x, t.types x = s.types x
  owns : ∀ v, (t.form v).scope? ≠ none → v.index < s.values.size
  lacks : ∀ c name, s.Inner c → (t.Lacks c name ↔ s.Lacks c name)
  kept : ∀ cls w, s.exemplar? cls = some w → t.exemplar? cls = some w
  made : ∀ cls w, t.exemplar? cls = some w →
    s.exemplar? cls = some w ∨ t.form w = .builtinInstance cls ∨ (t.form cls).kind = .userClass

/-- What lookups leave alone: how values refer to one another, and the marks of classes. -/
structure Peeks (s t : Session) : Prop extends Links s t where
  mark : ∀ v, (t.form v).marked = (s.form v).marked

/-- Names are made and readers noted, and nothing else happens. -/
def Reads : Session → Session → Prop :=
  Relation.ReflTransGen fun s t =>
    (∃ c name, t = after (nameIn c name) s) ∨ ∃ x u, t = after (addReader x u) s

section Exemplar

variable {s : Session} {v : ValueId} {value : Value}

theorem exemplar?_push (bare : value.kept = []) (cls : ValueId) :
    (s.withValue value).exemplar? cls = s.exemplar? cls := by
  rw [exemplar?, withValue, value_push]
  split
  · next new =>
    rw [exemplar?, value_of_le (Nat.le_of_eq new.symm), Value.kept?, bare]
    rfl
  · rfl

theorem exemplar?_setValue (kept : value.kept? .instance_ = (s.value v).kept? .instance_) (cls : ValueId) :
    (s.setValue v value).exemplar? cls = s.exemplar? cls := by
  rw [exemplar?, value_setValue]
  split
  · next own => rw [kept, own.1, exemplar?]
  · rfl

def withInstance (s : Session) (cls : ValueId) (value : Value) : Session :=
  (s.withValue value).setValue cls ((s.value cls).keep .instance_ s.nextValue)

variable {cls : ValueId}

theorem exemplar?_withInstance (bare : value.kept = []) (there : cls.index < s.values.size) (u : ValueId) :
    (s.withInstance cls value).exemplar? u = if u = cls then some s.nextValue else s.exemplar? u := by
  rw [exemplar?, withInstance, value_setValue]
  by_cases own : u = cls
  · rw [if_pos own, if_pos ⟨own, Nat.lt_of_lt_of_le there (by simp [withValue])⟩, Value.kept?_keep, if_pos rfl]
  · rw [if_neg own, if_neg fun h => own h.1]
    exact exemplar?_push bare u

theorem form_withInstance (there : cls.index < s.values.size) (u : ValueId) :
    (s.withInstance cls value).form u = (s.withValue value).form u := by
  have same : (s.withValue value).value cls = s.value cls :=
    (value_push s value cls).trans (if_neg (Nat.ne_of_lt there))
  have keeps : ((s.value cls).keep .instance_ s.nextValue).form = (s.withValue value).form cls :=
    (congrArg Value.form same).symm
  exact congr_form_setValue id keeps u

/-- The instance of a class is made together with the slot that keeps it. -/
theorem keptOr_run_of_none (none : s.exemplar? cls = none) (there : cls.index < s.values.size)
    (name description : String) (type : MemberType) (form : Form) :
    keptOr cls .instance_ (newValue name description type form) s =
      .ok s.nextValue (s.withInstance cls ⟨name, description, type, form, {}, []⟩) := by
  have same : (s.withValue ⟨name, description, type, form, {}, []⟩).value cls = s.value cls :=
    (value_push s _ cls).trans (if_neg (Nat.ne_of_lt there))
  replace none : (s.value cls).kept? .instance_ = .none := none
  rw [withInstance, ← same]
  simp only [keptOr, read_run, none]
  rfl

theorem keptOr_run_of_some {made : ValueId} (kept : s.exemplar? cls = some made) (make : Analysis ValueId) :
    keptOr cls .instance_ make s = .ok made s := by
  replace kept : (s.value cls).kept? .instance_ = some made := kept
  simp only [keptOr, read_run, kept]
  rfl

end Exemplar

namespace Links

variable {s t r : Session}

theorem kind (h : Links s t) {v : ValueId} (there : v.index < s.values.size) : (t.form v).kind = (s.form v).kind := by
  rw [← Form.kind_outline, h.outline v there, Form.kind_outline]

/-- Values that are there and have neither marks nor attributes stay as they are. -/
theorem form (h : Links s t) {v : ValueId} (there : v.index < s.values.size)
    (cls : (s.form v).kind ≠ .userClass) (self : (s.form v).kind ≠ .userInstance) : t.form v = s.form v := by
  have same := h.outline v there
  have kind := h.kind there
  rwa [Form.outline_of_kind cls self, Form.outline_of_kind (kind ▸ cls) (kind ▸ self)] at same

theorem keeps (h : Links s t) {v : ValueId} {form : Form} (hv : s.form v = form)
    (made : form ≠ (default : Value).form) (cls : form.kind ≠ .userClass)
    (self : form.kind ≠ .userInstance) : t.form v = form := by
  rw [← hv] at made cls self ⊢
  exact h.form (index_lt_of_form made) cls self

/-- A class keeps its bases, whether it is marked or not. -/
theorem userClass (h : Links s t) {v : ValueId} {c : UserClass} (hv : s.form v = .userClass c) :
    ∃ on, t.form v = .userClass { c with resolving := on } := by
  have there : v.index < s.values.size := index_lt_of_form (by rw [hv]; nofun)
  have same := h.outline v there
  rw [hv] at same
  cases ht : t.form v with
  | userClass d =>
    rw [ht] at same
    simp only [Form.outline, Form.userClass.injEq] at same
    obtain ⟨code, bases, resolving⟩ := c
    obtain ⟨other, others, marked⟩ := d
    simp only [UserClass.mk.injEq] at same
    exact ⟨marked, by rw [same.1, same.2.1]⟩
  | _ =>
    rw [ht] at same
    cases same

theorem userInstance (h : Links s t) {v cls : ValueId} {attributes : NameMap VarId}
    (hv : s.form v = .userInstance cls attributes) : ∃ more, t.form v = .userInstance cls more := by
  have there : v.index < s.values.size := index_lt_of_form (by rw [hv]; nofun)
  have same := h.outline v there
  rw [hv] at same
  cases ht : t.form v with
  | userInstance other more =>
    rw [ht] at same
    simp only [Form.outline, Form.userInstance.injEq, and_true] at same
    exact ⟨more, by rw [same]⟩
  | _ =>
    rw [ht] at same
    cases same

theorem refl (s : Session) : Links s s :=
  ⟨Nat.le_refl _, fun _ _ => rfl, fun _ => rfl, fun _ => index_lt_of_scope?, fun _ _ _ => .rfl, fun _ _ h => h,
    fun _ _ h => .inl h⟩

theorem modules (h : Links s t) {m : ValueId} {p : ProjectModule} (hm : t.form m = .module p) :
    s.form m = .module p := by
  have same := h.outline m (h.owns m (by rw [hm]; nofun))
  rw [hm] at same
  exact Form.eq_module_of_outline same.symm

theorem inner (h : Links s t) {c : ScopeId} (own : s.Inner c) : t.Inner c :=
  fun m p hm => own m p (h.modules hm)

theorem trans (h : Links s t) (g : Links t r) : Links s r where
  size := Nat.le_trans h.size g.size
  outline v hv := (g.outline v (Nat.lt_of_lt_of_le hv h.size)).trans (h.outline v hv)
  types x := (g.types x).trans (h.types x)
  owns v hv := by
    have same := g.outline v (g.owns v hv)
    refine h.owns v ?_
    rwa [← Form.scope?_outline, ← same, Form.scope?_outline]
  lacks c name own := (g.lacks c name (h.inner own)).trans (h.lacks c name own)
  kept cls w hw := g.kept cls w (h.kept cls w hw)
  made cls w hw := by
    rcases g.made cls w hw with hw | made
    · rcases h.made cls w hw with hw | made | user
      · exact .inl hw
      · exact .inr (.inl (g.keeps made nofun nofun nofun))
      · have there : cls.index < t.values.size := index_lt_of_form fun same => by rw [same] at user; cases user
        exact .inr (.inr ((g.kind there).trans user))
    · exact .inr made

end Links

/-- What an action yields may be changed. -/
theorem after_map {α β : Type} (m : Analysis α) (f : α → β) (s : Session) :
    after (m >>= fun a => (pure (f a) : Analysis β)) s = after m s := by
  cases h : m s with
  | ok a t => rw [after_bind_of_ok h, after_of_ok h, after_pure]
  | error e t => rw [after_bind_of_error h, after_of_error h]

section Mark

variable (cls : ValueId) (on : Bool) (s : Session)

theorem marked_of_kind {form : Form} (h : form.kind ≠ .userClass) : form.marked = false := by
  cases form with
  | userClass c => exact absurd rfl h
  | _ => rfl

private theorem size_setResolving : (after (setResolving cls on) s).values.size = s.values.size := by
  rcases after_setResolving cls on s with ends | ⟨c, -, ends⟩ <;> rw [ends]
  simp [setValue]

theorem types_setResolving (x : VarId) : (after (setResolving cls on) s).types x = s.types x := by
  rcases after_setResolving cls on s with ends | ⟨c, -, ends⟩ <;> rw [ends]
  rfl

theorem scopes_setResolving : (after (setResolving cls on) s).scopes = s.scopes := by
  rcases after_setResolving cls on s with ends | ⟨c, -, ends⟩ <;> rw [ends]
  rfl

private theorem exemplar?_setResolving (v : ValueId) : (after (setResolving cls on) s).exemplar? v = s.exemplar? v := by
  rcases after_setResolving cls on s with ends | ⟨c, -, ends⟩ <;> rw [ends]
  exact exemplar?_setValue (by rfl) v

private theorem outline_setResolving (v : ValueId) :
    ((after (setResolving cls on) s).form v).outline = (s.form v).outline := by
  rcases after_setResolving cls on s with ends | ⟨c, h, ends⟩ <;> rw [ends]
  exact congr_form_setValue Form.outline (congrArg Form.outline h).symm v

/-- Only classes of the program have a mark. -/
theorem marked_setResolving (v : ValueId) :
    ((after (setResolving cls on) s).form v).marked =
      if v = cls ∧ (s.form cls).kind = .userClass then on else (s.form v).marked := by
  cases h : s.form cls with
  | userClass c =>
    have there : cls.index < s.values.size := index_lt_of_form (by rw [h]; nofun)
    have ends : after (setResolving cls on) s =
        s.setValue cls { s.value cls with form := .userClass { c with resolving := on } } := by
      simp only [setResolving, after_read, h]
      rfl
    rw [ends, form_setValue]
    by_cases own : v = cls
    · rw [if_pos ⟨own, there⟩, if_pos ⟨own, rfl⟩]
      rfl
    · rw [if_neg fun same => own same.1, if_neg fun same => own same.1]
  | _ =>
    have ends : after (setResolving cls on) s = s := by
      simp only [setResolving, after_read, h]
      rfl
    rw [ends, if_neg (by rintro ⟨-, ⟨⟩⟩)]

theorem links_setResolving : Links s (after (setResolving cls on) s) where
  size := Nat.le_of_eq (size_setResolving cls on s).symm
  outline v _ := outline_setResolving cls on s v
  types := types_setResolving cls on s
  owns v hv := by
    rw [← size_setResolving cls on s]
    exact index_lt_of_scope? hv
  lacks c name _ := by simp only [Lacks, findName?, scope, scopes_setResolving, types_setResolving]
  kept v w hw := by rwa [exemplar?_setResolving]
  made v w hw := by
    rw [exemplar?_setResolving] at hw
    exact .inl hw

theorem total_setResolving : Total (setResolving cls on) := by
  refine .read fun s => ?_
  split
  · exact .modify _
  · exact .pure _

/-- The mark is set before the search and taken away after it, whether it succeeds or fails. -/
theorem whileResolving_run {α : Type} (search : Analysis α) :
    whileResolving cls search s =
      match search (after (setResolving cls true) s) with
      | .ok a t => .ok a (after (setResolving cls false) t)
      | .error e t => .error e (after (setResolving cls false) t) := by
  have marks : ∀ on r, setResolving cls on r = .ok () (after (setResolving cls on) r) := by
    intro on r
    obtain ⟨⟨⟩, run⟩ := total_setResolving cls on r
    exact run
  rw [whileResolving, bind_of_ok (marks true s)]
  cases run : search (after (setResolving cls true) s) <;>
    simp only [tryFinally, MonadFinally.tryFinally', Functor.map, EStateM.map, run, marks false]

theorem after_whileResolving {α : Type} (search : Analysis α) :
    after (whileResolving cls search) s =
      after (setResolving cls false) (after search (after (setResolving cls true) s)) := by
  rw [after, whileResolving_run]
  cases run : search (after (setResolving cls true) s) with
  | ok a t => rw [after_of_ok run]
  | error e t => rw [after_of_error run]

end Mark

namespace Peeks

variable {s t r : Session}

theorem userClass (h : Peeks s t) {v : ValueId} {c : UserClass} (hv : s.form v = .userClass c) :
    t.form v = .userClass c := by
  obtain ⟨on, ht⟩ := h.toLinks.userClass hv
  have mark := h.mark v
  rw [ht, hv] at mark
  rw [ht, show on = c.resolving from mark]

theorem refl (s : Session) : Peeks s s := ⟨.refl s, fun _ => rfl⟩

theorem trans (h : Peeks s t) (g : Peeks t r) : Peeks s r :=
  ⟨h.toLinks.trans g.toLinks, fun v => (g.mark v).trans (h.mark v)⟩

/-- Other parts of a session than values may change while no types do and no name gets or loses types. -/
theorem of_types (types : ∀ x, t.types x = s.types x)
    (lacks : ∀ c name, s.Inner c → (t.Lacks c name ↔ s.Lacks c name)) (values : t.values = s.values) :
    Peeks s t where
  size := Nat.le_of_eq (congrArg Array.size values).symm
  outline v _ := by rw [form, form, value, value, values]
  mark v := by rw [form, form, value, value, values]
  types := types
  owns v hv := by
    rw [← values]
    exact index_lt_of_scope? hv
  lacks := lacks
  kept cls w hw := by rwa [exemplar?, value, values]
  made cls w hw := by
    rw [exemplar?, value, values] at hw
    exact .inl hw

theorem of_scopes (types : ∀ x, t.types x = s.types x) (values : t.values = s.values)
    (scopes : t.scopes = s.scopes) : Peeks s t := by
  refine of_types types (fun c name _ => ?_) values
  simp only [Lacks, findName?, scope, scopes, types]

theorem of_same (values : t.values = s.values) (records : t.records = s.records)
    (scopes : t.scopes = s.scopes) : Peeks s t :=
  of_scopes (fun x => by rw [Session.types, Session.types, var, var, records]) values scopes

theorem of_notifies {xs : List VarId} (h : Notifies xs s t) : Peeks s t :=
  of_scopes h.types (by rw [h.frame]) (by rw [h.frame])

theorem of_queues {us : List UnitId} (h : Queues us s t) : Peeks s t :=
  of_same (by rw [h.frame]) (by rw [h.frame]) (by rw [h.frame])

/-- A name that is made has no types. -/
theorem nameIn (c : ScopeId) (name : String) (s : Session) : Peeks s (after (nameIn c name) s) := by
  have fills : Fills s (after (Session.nameIn c name) s) := .nameIn c name s
  refine of_types fills.types (fun d other _ => ⟨fun hl x hx => ?_, fun hl x hx => ?_⟩) (by rw [fills.frame])
  · rw [← fills.types]
    exact hl x (fills.names d other x hx)
  · rw [fills.types]
    rcases after_nameIn c name s with ends | ⟨-, ends⟩
    · rw [ends] at hx
      exact hl x hx
    · rw [ends, findName?_withName] at hx
      split at hx
      · cases hx
        rw [Fills.types_of_le (x := ⟨s.records.size⟩) (Nat.le_refl _)]
        rfl
      · exact hl x hx

theorem addReader (x : VarId) (u : UnitId) (s : Session) : Peeks s (after (addReader x u) s) := by
  refine of_scopes (fun y => ?_) rfl rfl
  rw [Session.types, show (after (Session.addReader x u) s).var y = _ from Fills.var_modify s x y _]
  split
  · exact Variable.types_addReader _ _ _
  · rfl

theorem of_reads (h : Reads s t) : Peeks s t := by
  induction h with
  | refl => exact refl s
  | tail _ step ih =>
    rcases step with ⟨c, name, rfl⟩ | ⟨x, u, rfl⟩
    · exact ih.trans (nameIn c name _)
    · exact ih.trans (addReader x u _)

/-- A value may be made that has no scope of its own. -/
theorem push {value : Value} (free : value.form.scope? = none) (bare : value.kept = []) :
    Peeks s (s.withValue value) where
  size := by simp [withValue]
  outline v hv := by rw [withValue, form_push, if_neg (Nat.ne_of_lt hv)]
  mark v := by
    rw [withValue, form_push]
    split
    · next new =>
      rw [Form.marked_of_scope? free, form_of_le (Nat.le_of_eq new.symm)]
      rfl
    · rfl
  types _ := rfl
  owns v hv := by
    rw [withValue, form_push] at hv
    split at hv
    · exact absurd free hv
    · exact index_lt_of_scope? hv
  lacks _ _ _ := .rfl
  kept cls w hw := by rwa [exemplar?_push bare]
  made cls w hw := by
    rw [exemplar?_push bare] at hw
    exact .inl hw

/-- Another value takes the place of one of the same outline. -/
theorem setValue {v : ValueId} {value : Value} (outline : value.form.outline = (s.form v).outline)
    (mark : value.form.marked = (s.form v).marked)
    (kept : value.kept? .instance_ = (s.value v).kept? .instance_) : Peeks s (s.setValue v value) where
  size := by simp [Session.setValue]
  outline w _ := congr_form_setValue Form.outline outline w
  mark := congr_form_setValue Form.marked mark
  types _ := rfl
  owns w hw := by
    have there := index_lt_of_scope? hw
    simpa [Session.setValue] using there
  lacks _ _ _ := .rfl
  kept cls w hw := by rwa [exemplar?_setValue kept]
  made cls w hw := by
    rw [exemplar?_setValue kept] at hw
    exact .inl hw

/-- The instance of a class is made and kept. -/
theorem withInstance {cls : ValueId} {value : Value} (free : value.form.scope? = none) (bare : value.kept = [])
    (there : cls.index < s.values.size) (of : value.form = .builtinInstance cls ∨ (s.form cls).kind = .userClass)
    (none : s.exemplar? cls = none) : Peeks s (s.withInstance cls value) := by
  have pushed : Peeks s (s.withValue value) := push free bare
  refine ⟨⟨?_, fun v hv => ?_, fun _ => rfl, fun v hv => ?_, fun _ _ _ => .rfl, fun v w hw => ?_,
    fun v w hw => ?_⟩, fun v => ?_⟩
  · simpa [Session.withInstance, Session.setValue] using pushed.size
  · rw [form_withInstance there, pushed.outline v hv]
  · rw [form_withInstance there] at hv
    exact pushed.owns v hv
  · rw [exemplar?_withInstance bare there]
    split
    · next own =>
      rw [own, none] at hw
      cases hw
    · exact hw
  · rw [exemplar?_withInstance bare there] at hw
    split at hw
    · next own =>
      cases hw
      rw [form_withInstance there, form_withInstance there, own]
      refine .inr (of.imp (fun made => ?_) fun user => (pushed.kind there).trans user)
      rw [withValue, form_push, if_pos (show s.nextValue.index = s.values.size from rfl), made]
    · exact .inl hw
  · rw [form_withInstance there, pushed.mark v]

theorem attributeOf (v : ValueId) (name : String) (s : Session) : Peeks s (after (attributeOf v name) s) := by
  rcases after_attributeOf v name s with ends | ⟨cls, attributes, h, -, ends⟩ <;> rw [ends]
  · exact refl s
  · have made : Peeks s { s with records := s.records.push { cap := s.options.limits.memberTypes } } :=
      of_scopes (Fills.push s _).types rfl rfl
    refine made.trans (setValue ?_ ?_ rfl)
    · exact (congrArg Form.outline h).symm
    · exact (congrArg Form.marked h).symm

theorem clearModule (m : ValueId) (s : Session) : Peeks s (after (clearModule m) s) := by
  rcases after_clearModule m s with ends | ⟨p, t, h, told, ends⟩ <;> rw [ends]
  · exact refl s
  · refine (of_notifies told).trans (of_types (fun _ => rfl) (fun c name own => ?_) rfl)
    have other : c ≠ p.scope := fun same => own m p (by rw [form, value, told.frame]; exact h) same.symm
    simp only [Lacks, findName?, Unnames.scope_withoutNames, if_neg other]
    rfl

theorem enqueueEntry (e : EntryId) (s : Session) : Peeks s (after (enqueueEntry e) s) := by
  rcases after_enqueueEntry e s with ends | ⟨u, -, ends⟩ <;> rw [ends]
  · exact refl s
  · have versioned : Peeks s (s.withVersion e) := of_same rfl rfl rfl
    exact (versioned.trans (clearModule _ _)).trans (of_queues (queues_enqueue u .back _))

/-- A module gets an entry in its table, and is queued if it has a tree. -/
theorem specializeModule (m : ValueId) (qualified : String) (spec : Specialization) (s : Session) :
    Peeks s (after (specializeModule m qualified spec) s) := by
  have replaced : Peeks s (s.withReplacement m qualified spec) := setValue rfl rfl rfl
  rcases after_specializeModule m qualified spec s with ⟨-, ends⟩ | ⟨p, -, -, ends⟩ <;> rw [ends]
  · exact replaced
  · exact replaced.trans (enqueueEntry _ _)

end Peeks

/-- What a record holds when it is read is what it held before. -/
theorem readAt_run (x : VarId) (site : Site) (s : Session) :
    readAt x site s = .ok (s.types x) (after (addReader x site.unit) s) := by
  rw [← (Peeks.addReader x site.unit s).types]
  rfl

end Session

end Typeflow
