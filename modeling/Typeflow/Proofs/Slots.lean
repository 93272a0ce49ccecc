import Typeflow.Proofs.Definitions

/-! The node of a function or class keeps one value in a scope: the definition of its body. -/
namespace Typeflow.Session

/-- The value is the definition of a body of a module. -/
def Stands (s : Session) (e : EntryId) (body : Body) (v : ValueId) : Prop :=
  (∃ code, (s.form v).code? = some code ∧ code.entry = some e ∧ code.body = some body) ∧
    (s.form v).kind = body.kind

/-- What a scope keeps for a node. -/
def slot (s : Session) (c : ScopeId) (n : NodeId) : Option ValueSet := (s.scope c).nodeValues.lookup n

/-- Values are kept only for nodes that have their numbers, and those kept for the nodes of bodies are
their definitions. -/
structure Slots (s : Session) : Prop where
  below : ∀ c n, s.slot c n ≠ none → n.index < s.nextNode
  made : ∀ c e body values, s.hasBody e body → s.slot c body.node.id = some values →
    ∃ v, values = .single (some v) ∧ s.Stands e body v

theorem slot_of_scopes {s t : Session} (scopes : t.scopes = s.scopes) (c : ScopeId) (n : NodeId) :
    t.slot c n = s.slot c n := by
  rw [slot, slot, scope, scope, scopes]

theorem slot_push {s t : Session} {scope : Scope} (scopes : t.scopes = s.scopes.push scope)
    (empty : scope.nodeValues = []) (c : ScopeId) (n : NodeId) : t.slot c n = s.slot c n := by
  have look : t.scope c = if c.index = s.scopes.size then scope else s.scope c := by
    rw [Session.scope, scopes]
    exact getD_push _ _ _ _
  rw [slot, slot, look]
  split
  · next hc => rw [scope_of_le (Nat.le_of_eq hc.symm), empty]; rfl
  · rfl

theorem KeepsTrees.hasBody {s t : Session} (h : KeepsTrees s t) {e : EntryId} {body : Body}
    (hb : t.hasBody e body) : s.hasBody e body := by
  obtain ⟨tree, ht, mem⟩ := hb
  exact ⟨tree, h.tree e tree ht, mem⟩

theorem Licence.Apart.keepsTrees {L : Licence} {s t : Session} (h : L.Apart s) (hk : KeepsTrees s t) :
    L.Apart t := by
  refine ⟨fun n hn => Nat.lt_of_lt_of_le (h.below n hn) hk.nextNode, fun n hn hb => h.keep n hn ?_⟩
  obtain ⟨e, body, has, same⟩ := hb
  exact ⟨e, body, hk.hasBody has, same⟩

/-- A unit that may run keeps values for nodes of its own only. -/
theorem Sane.licence_apart {s : Session} (h : Sane s) {u : UnitId} (ha : s.isAlive u = true) :
    (licence u (s.unit u).body).Apart s := by
  cases he : (s.unit u).entry with
  | none =>
    have empty : (s.unit u).body.places = [] := by
      rw [Body.places, (h.coherent.observer u ha he).2]
      rfl
    have no : ∀ n, ¬ (licence u (s.unit u).body).keep n := by
      intro n hn
      have hn : n ∈ (s.unit u).body.places := hn
      rw [empty] at hn
      cases hn
    exact ⟨fun n hn => absurd hn (no n), fun n hn => absurd hn (no n)⟩
  | some e =>
    obtain ⟨tree, ht, mem⟩ := (h.coherent.placed u e ha he).body
    refine ⟨fun n hn => ?_, fun n hn hb => ?_⟩
    · exact h.numbered.spotBelow e tree ht n (Tree.places_of_bodies mem hn)
    · obtain ⟨f, body, ⟨other, ho, has⟩, rfl⟩ := hb
      exact h.numbered.apart f e other tree ho ht body has (Tree.places_of_bodies mem hn)

namespace Stands

variable {s t : Session} {e : EntryId} {body : Body} {v : ValueId}

theorem inRange (h : s.Stands e body v) : v.index < s.values.size := by
  obtain ⟨⟨code, hc, -⟩, -⟩ := h
  exact index_lt_of_code? hc

theorem of_sheds (h : s.Stands e body v) (hs : Sheds s t) (kept : (t.form v).code? = (s.form v).code?) :
    t.Stands e body v := by
  obtain ⟨⟨code, hc, hr⟩, kind⟩ := h
  exact ⟨⟨code, kept.trans hc, hr⟩, (hs.kind v (index_lt_of_code? hc)).trans kind⟩

theorem still {keep : NodeId → Prop} (h : s.Stands e body v) (hs : Still keep s t) :
    t.Stands e body v := h.of_sheds (.of_still hs) (hs.code v)

theorem starts {w : ValueId} {f : EntryId} {b : Body} {scope : ScopeId} (h : s.Stands e body v)
    (code : (s.form w).code? = some ⟨some f, some b, scope, none⟩) (hs : Starts w f b scope s t) :
    t.Stands e body v := by
  obtain ⟨⟨found, hc, he, hb⟩, kind⟩ := h
  refine ⟨?_, (hs.kind v).trans kind⟩
  rw [hs.code]
  split
  · next hv =>
    rw [hv, code] at hc
    obtain rfl := Option.some.inj hc
    exact ⟨_, rfl, he, hb⟩
  · exact ⟨found, hc, he, hb⟩

theorem defines {kind : ValueKind} {u : UnitId} {b : Body} (h : s.Stands e body v)
    (hs : Defines kind u b s t) : t.Stands e body v := by
  have same := hs.form v (Nat.ne_of_lt h.inRange)
  rw [Stands, same]
  exact h

end Stands

namespace Slots

variable {s t : Session}

/-- What is kept for the nodes of bodies was kept before, and is still their definition. -/
theorem of_kept (h : Slots s) (trees : KeepsTrees s t)
    (below : ∀ c n, t.slot c n ≠ none → s.slot c n ≠ none ∨ n.index < t.nextNode)
    (nodes : ∀ c e body, t.hasBody e body → t.slot c body.node.id ≠ none →
      t.slot c body.node.id = s.slot c body.node.id)
    (stands : ∀ e body v, t.hasBody e body → s.Stands e body v → t.Stands e body v) : Slots t where
  below c n hn := by
    rcases below c n hn with old | new
    · exact Nat.lt_of_lt_of_le (h.below c n old) trees.nextNode
    · exact new
  made c e body values hb hv := by
    have old := nodes c e body hb (by rw [hv]; exact Option.some_ne_none _)
    obtain ⟨v, hs, standing⟩ := h.made c e body values (trees.hasBody hb) (old.symm.trans hv)
    exact ⟨v, hs, stands e body v hb standing⟩

theorem still {L : Licence} (h : Slots s) (apart : L.Apart s) (hs : Still L.keep s t) : Slots t := by
  have trees := KeepsTrees.of_still hs
  refine h.of_kept trees (fun c n hn => ?_) (fun c e body hb _ => ?_) fun e body v _ hv => hv.still hs
  · by_cases hk : L.keep n
    · exact .inr (Nat.lt_of_lt_of_le (apart.below n hk) trees.nextNode)
    · rw [slot, hs.nodes c n hk] at hn
      exact .inl hn
  · exact hs.nodes c _ fun hk => apart.keep _ hk ⟨e, body, trees.hasBody hb, rfl⟩

/-- The definition that is made for a node is that of its body. -/
theorem defines {L : Licence} (h : Slots s) (hs : Sane s) (sound : L.Sound s) {u : UnitId} {body : Body}
    (licensed : L.define u body) (trees : KeepsTrees s t) (ht : Defines body.kind u body s t) :
    Slots t := by
  obtain ⟨hu, e, he, -, has⟩ := sound u body licensed
  have look := ht.nodes (hs.coherent.unitScope u hu)
  constructor
  case below =>
    intro c n hn
    rw [slot, look] at hn
    rw [ht.nextNode]
    split at hn
    · next same =>
      obtain ⟨tree, current, mem⟩ := has
      rw [same.2]
      exact hs.numbered.bodyBelow e tree current body mem
    · exact h.below c n hn
  case made =>
    intro c f other values hb hv
    have hb := trees.hasBody hb
    rw [slot, look] at hv
    split at hv
    · next same =>
      obtain ⟨tree, current, mem⟩ := hb
      obtain ⟨tree', current', mem'⟩ := has
      obtain ⟨rfl, rfl⟩ := hs.numbered.same f e tree tree' current current' other mem body mem' same.2
      refine ⟨_, (Option.some.inj hv).symm, ⟨_, ht.code, he, rfl⟩, ht.kind⟩
    · obtain ⟨v, hval, standing⟩ := h.made c f other values hb hv
      exact ⟨v, hval, standing.defines ht⟩

theorem step {L : Licence} (h : Slots s) (hs : Sane s) (sound : L.Sound s) (apart : L.Apart s)
    (hst : Step L s t) : Slots t := by
  have trees := hst.keepsTrees hs.coherent
  cases hst.shape hs.coherent with
  | still ht => exact h.still apart ht
  | starts v e body scope place r code hr _ enqueued =>
    have kept := KeepsTrees.of_starts hr
    have started : Slots r := h.of_kept kept
      (fun c n hn => .inl (by rwa [slot_of_scopes hr.scopes] at hn))
      (fun c _ _ _ _ => slot_of_scopes hr.scopes c _) fun e body v _ hv => hv.starts code hr
    exact started.still (apart.keepsTrees kept) enqueued
  | defines u body licensed ht => exact h.defines hs sound licensed trees ht

/-- A change of other parts of a session. -/
theorem of_eq (h : Slots s) (values : t.values = s.values) (scopes : t.scopes = s.scopes)
    (entries : t.entries = s.entries) (nextNode : s.nextNode ≤ t.nextNode) : Slots t := by
  have trees : KeepsTrees s t := ⟨fun e tree ht => by rwa [Session.entry, entries] at ht, nextNode⟩
  refine h.of_kept trees (fun c n hn => ?_) (fun c _ _ _ _ => slot_of_scopes scopes c _)
    fun e body v _ hv => ?_
  · rw [slot_of_scopes scopes] at hn
    exact .inl hn
  · rw [Stands, form, value, values]
    exact hv

end Slots

/-- The session may be changed by steps that the licence allows. -/
structure Ready (L : Licence) (s : Session) : Prop where
  sane : Sane s
  sound : L.Sound s
  apart : L.Apart s
  slots : Slots s

namespace Ready

variable {L : Licence} {s t : Session}

theorem step (h : Ready L s) (hs : Step L s t) : Ready L t :=
  ⟨h.sane.step h.sound hs, h.sound.step h.sane.coherent hs,
    h.apart.keepsTrees (hs.keepsTrees h.sane.coherent), h.slots.step h.sane h.sound h.apart hs⟩

theorem steps (h : Ready L s) (hs : Steps L s t) : Ready L t :=
  hs.induct (fun _ _ hst ready => ready.step hst) h

/-- An invariant of every step from a session that is ready for it is one of any number of steps. -/
theorem induct {P : Session → Prop} (h : Ready L s) (hs : Steps L s t) (start : P s)
    (step : ∀ r q, Ready L r → Step L r q → P r → P q) : P t := by
  have both : Ready L t ∧ P t :=
    hs.induct (P := fun t => Ready L t ∧ P t)
      (fun r q next ⟨ready, hp⟩ => ⟨ready.step next, step r q ready next hp⟩) ⟨h, start⟩
  exact both.2

theorem foreign (h : Sane s) (slots : Slots s) (free : L.Foreign s) : Ready L s :=
  ⟨h, fun u body hd => (free.define u body hd).elim, free.toApart, slots⟩

theorem licence {u : UnitId} (h : Sane s) (slots : Slots s) (ha : s.isAlive u = true) :
    Ready (licence u (s.unit u).body) s :=
  ⟨h, h.licence_sound ha, h.licence_apart ha, slots⟩

end Ready

end Typeflow.Session
