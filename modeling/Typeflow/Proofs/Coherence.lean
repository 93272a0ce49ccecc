import Typeflow.Proofs.Effect.Definition

/-! The units that may run belong to the current trees of modules that are there. Every definition and
module has a scope of its own, so units that may run never share a body, and only such units wait. -/
namespace Typeflow

theorem Form.scope?_of_module? {form : Form} {p : ProjectModule} (h : form.module? = some p) :
    form.scope? = some p.scope := by
  cases form <;> first | cases h; rfl | cases h

theorem Form.scope?_of_code? {form : Form} {code : Code} (h : form.code? = some code) :
    form.scope? = some code.scope := by
  cases form <;> first | cases h; rfl | cases h

/-- Only modules and definitions own scopes. -/
theorem Form.of_scope? {form : Form} {c : ScopeId} (h : form.scope? = some c) :
    (∃ p, form.module? = some p ∧ p.scope = c) ∨ ∃ code, form.code? = some code ∧ code.scope = c := by
  cases form <;> first | cases h; exact .inl ⟨_, rfl, rfl⟩ | cases h; exact .inr ⟨_, rfl, rfl⟩ | cases h

theorem Form.code?_of_module? {form : Form} {p : ProjectModule} (h : form.module? = some p) :
    form.code? = none := by
  cases form <;> first | rfl | cases h

namespace Session

/-- The current tree of a module has the body. -/
def hasBody (s : Session) (e : EntryId) (body : Body) : Prop :=
  ∃ tree, (s.entry e).tree = some tree ∧ body ∈ tree.bodies

/-- The unit runs the whole tree of the module. -/
def Heads (s : Session) (u : UnitId) (e : EntryId) : Prop :=
  (s.entry e).unit = some u ∧
    (s.form (s.entry e).module).module? = some ⟨e, (s.unit u).scope⟩

/-- The unit runs a function or class of the module. -/
def RunsDefinition (s : Session) (u : UnitId) (e : EntryId) : Prop :=
  ∃ v, (s.form v).code? = some ⟨some e, some (s.unit u).body, (s.unit u).scope, some u⟩

/-- A unit of a module that may run is one that the module keeps track of. -/
structure Placed (s : Session) (u : UnitId) (e : EntryId) : Prop where
  inRange : e.index < s.entries.size
  present : (s.entry e).removed = false
  tracked : u ∈ (s.entry e).units
  body : s.hasBody e (s.unit u).body
  role : s.Heads u e ∨ s.RunsDefinition u e

/-- A definition of a module whose tree is still there belongs to that tree. -/
def Rooted (s : Session) (v : ValueId) (e : EntryId) (body : Body) : Prop :=
  (s.entry e).removed = true ∨ v ∈ (s.entry e).definitions ∧ s.hasBody e body

structure Coherent (s : Session) : Prop where
  owned : ∀ v c, (s.form v).scope? = some c → c.index < s.scopes.size ∧ (s.scope c).owner = some v
  modules : ∀ e, e.index < s.entries.size → ∃ c, (s.form (s.entry e).module).module? = some ⟨e, c⟩
  moduleOf : ∀ v p, (s.form v).module? = some p →
    p.entry.index < s.entries.size ∧ (s.entry p.entry).module = v
  unitScope : ∀ u, u.index < s.units.size → (s.unit u).scope.index < s.scopes.size
  code : ∀ v code, (s.form v).code? = some code →
    ∃ e, code.entry = some e ∧ e.index < s.entries.size ∧
      ∀ body, code.body = some body → s.Rooted v e body
  definitions : ∀ e, ∀ v ∈ (s.entry e).definitions,
    ∃ code, (s.form v).code? = some code ∧ code.entry = some e
  observer : ∀ u, s.isAlive u = true → (s.unit u).entry = none →
    (s.scope (s.unit u).scope).owner = none ∧ (s.unit u).body.statements = []
  placed : ∀ u e, s.isAlive u = true → (s.unit u).entry = some e → s.Placed u e
  apart : ∀ u w, s.isAlive u = true → s.isAlive w = true → (s.unit u).scope = (s.unit w).scope → u = w
  waiting : ∀ job ∈ s.queue.jobs, s.isAlive job.unit = true ∧ job = s.job job.unit

namespace Coherent

variable {s t : Session}

/-- A change of other parts of a session, and of the queue if only the right jobs wait. -/
theorem of_eq (h : Coherent s) (values : t.values = s.values) (scopes : t.scopes = s.scopes)
    (units : t.units = s.units) (entries : t.entries = s.entries)
    (waiting : ∀ job ∈ t.queue.jobs, s.isAlive job.unit = true ∧ job = s.job job.unit) :
    Coherent t := by
  have form : ∀ v, t.form v = s.form v := fun v => by rw [Session.form, value, values]; rfl
  have scope : ∀ c, t.scope c = s.scope c := fun c => by rw [Session.scope, scopes]; rfl
  have unit : ∀ u, t.unit u = s.unit u := fun u => by rw [Session.unit, units]; rfl
  have entry : ∀ e, t.entry e = s.entry e := fun e => by rw [Session.entry, entries]; rfl
  have alive : ∀ u, t.isAlive u = s.isAlive u := fun u => by rw [isAlive, unit]; rfl
  have bodies : ∀ e b, t.hasBody e b ↔ s.hasBody e b := fun e b => by rw [hasBody, hasBody, entry]
  constructor
  case owned => simpa only [form, scope, scopes] using h.owned
  case modules => simpa only [form, entry, entries] using h.modules
  case moduleOf => simpa only [form, entry, entries] using h.moduleOf
  case unitScope => simpa only [unit, units, scopes] using h.unitScope
  case code => simpa only [form, entries, Rooted, entry, bodies] using h.code
  case definitions => simpa only [form, entry] using h.definitions
  case observer => simpa only [alive, unit, scope] using h.observer
  case placed =>
    intro u e ha he
    rw [alive] at ha
    rw [unit] at he
    have hp := h.placed u e ha he
    refine ⟨by rw [entries]; exact hp.inRange, by rw [entry]; exact hp.present,
      by rw [entry]; exact hp.tracked, by rw [bodies, unit]; exact hp.body, ?_⟩
    simpa only [Heads, RunsDefinition, form, entry, unit] using hp.role
  case apart => simpa only [alive, unit] using h.apart
  case waiting => simpa only [alive, Session.job, unit] using waiting

/-- A unit that may run waits as soon as its body does. -/
theorem mem_of_holds (h : Coherent s) {u : UnitId} (ha : s.isAlive u = true)
    (hq : s.queue.holds (s.job u) = true) : s.job u ∈ s.queue.jobs := by
  obtain ⟨other, ho, hscope, -⟩ := WorkQueue.holds_iff.1 hq
  obtain ⟨alive, same⟩ := h.waiting other ho
  have : other.unit = u := h.apart _ _ alive ha (by rw [same] at hscope; exact hscope)
  rwa [← this, ← same]

end Coherent

theorem Still.removed {keep : NodeId → Prop} {s t : Session} (h : Still keep s t) (e : EntryId) :
    (t.entry e).removed = (s.entry e).removed := by
  obtain ⟨n, hn⟩ := h.entry e
  rw [hn]

theorem Still.hasBody {keep : NodeId → Prop} {s t : Session} (h : Still keep s t) (e : EntryId)
    (body : Body) : t.hasBody e body ↔ s.hasBody e body := by
  obtain ⟨n, hn⟩ := h.entry e
  rw [Session.hasBody, Session.hasBody, hn]

theorem Still.scope? {keep : NodeId → Prop} {s t : Session} (h : Still keep s t) {v : ValueId}
    {c : ScopeId} (hc : (t.form v).scope? = some c) : (s.form v).scope? = some c := by
  rcases Form.of_scope? hc with ⟨p, hp, rfl⟩ | ⟨code, hcode, rfl⟩
  · exact Form.scope?_of_module? ((h.module v).symm.trans hp)
  · exact Form.scope?_of_code? ((h.code v).symm.trans hcode)

theorem Still.rooted {keep : NodeId → Prop} {s t : Session} (h : Still keep s t) {v : ValueId}
    {e : EntryId} {body : Body} (hr : s.Rooted v e body) : t.Rooted v e body := by
  obtain ⟨n, hn⟩ := h.entry e
  rw [Session.Rooted, h.hasBody, hn]
  exact hr

theorem Still.placed {keep : NodeId → Prop} {s t : Session} (h : Still keep s t) {u : UnitId}
    {e : EntryId} (hp : s.Placed u e) : t.Placed u e := by
  obtain ⟨n, hn⟩ := h.entry e
  refine ⟨by rw [h.entries]; exact hp.inRange, by rw [hn]; exact hp.present,
    by rw [hn]; exact hp.tracked, by rw [h.hasBody, h.unit]; exact hp.body, ?_⟩
  refine hp.role.imp (fun heads => ?_) (fun ⟨v, hv⟩ => ⟨v, ?_⟩)
  · rw [Heads, hn, h.unit, h.module]
    exact heads
  · rw [h.code, h.unit]
    exact hv

theorem Coherent.still {keep : NodeId → Prop} {s t : Session} (h : Coherent s) (hs : Still keep s t) :
    Coherent t where
  owned v c hc := by
    rw [hs.scopes, hs.owner]
    exact h.owned v c (hs.scope? hc)
  modules e he := by
    obtain ⟨n, hn⟩ := hs.entry e
    rw [hs.entries] at he
    obtain ⟨c, hc⟩ := h.modules e he
    exact ⟨c, by rw [hn, hs.module, hc]⟩
  moduleOf v p hp := by
    obtain ⟨n, hn⟩ := hs.entry p.entry
    rw [hs.entries, hn]
    exact h.moduleOf v p ((hs.module v).symm.trans hp)
  unitScope u hu := by
    rw [hs.units] at hu
    rw [hs.unit, hs.scopes]
    exact h.unitScope u hu
  code v code hc := by
    obtain ⟨e, he, hr, hb⟩ := h.code v code ((hs.code v).symm.trans hc)
    exact ⟨e, he, by rwa [hs.entries], fun body hbody => hs.rooted (hb body hbody)⟩
  definitions e v hv := by
    obtain ⟨n, hn⟩ := hs.entry e
    rw [hn] at hv
    obtain ⟨code, hc, he⟩ := h.definitions e v hv
    exact ⟨code, (hs.code v).trans hc, he⟩
  observer u ha hu := by
    rw [hs.isAlive] at ha
    rw [hs.unit] at hu ⊢
    rw [hs.owner]
    exact h.observer u ha hu
  placed u e ha hu := by
    rw [hs.isAlive] at ha
    rw [hs.unit] at hu
    exact hs.placed (h.placed u e ha hu)
  apart u w hu hw hc := by
    rw [hs.isAlive] at hu hw
    rw [hs.unit, hs.unit] at hc
    exact h.apart u w hu hw hc
  waiting job hj := by
    rw [hs.isAlive, hs.job]
    rcases hs.origin job hj with hj | hj
    · exact h.waiting job hj
    · exact hj

end Session

end Typeflow
