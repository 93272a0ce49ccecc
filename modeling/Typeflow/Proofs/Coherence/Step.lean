import Typeflow.Proofs.Coherence

/-! Evaluating code keeps a session coherent. -/
namespace Typeflow.Session

/-- Code may define only bodies of the current tree of the module that its unit belongs to. -/
def Licence.Sound (L : Licence) (s : Session) : Prop :=
  ∀ u body, L.define u body →
    u.index < s.units.size ∧
      ∃ e, (s.unit u).entry = some e ∧ e.index < s.entries.size ∧ s.hasBody e body

namespace Coherent

variable {s t : Session}

/-- A scope of a definition without a unit has no unit that may run. -/
theorem scope_ne (h : Coherent s) {v : ValueId} {code : Code} (hc : (s.form v).code? = some code)
    (hu : code.unit = none) {u : UnitId} (ha : s.isAlive u = true) :
    (s.unit u).scope ≠ code.scope := by
  intro same
  have owner : (s.scope (s.unit u).scope).owner = some v := by
    rw [same]
    exact (h.owned v _ (Form.scope?_of_code? hc)).2
  cases he : (s.unit u).entry with
  | none =>
    rw [(h.observer u ha he).1] at owner
    cases owner
  | some e =>
    rcases (h.placed u e ha he).role with heads | ⟨w, hw⟩
    · have hv := (h.owned _ _ (Form.scope?_of_module? heads.2)).2.symm.trans owner
      have none := Form.code?_of_module? heads.2
      rw [Option.some.inj hv, hc] at none
      cases none
    · have hv := (h.owned _ _ (Form.scope?_of_code? hw)).2.symm.trans owner
      rw [Option.some.inj hv, hc] at hw
      rw [Option.some.inj hw] at hu
      cases hu

/-- Making the unit of a definition keeps a session coherent. -/
theorem starts (h : Coherent s) {v : ValueId} {e : EntryId} {body : Body} {scope : ScopeId}
    (hc : (s.form v).code? = some ⟨some e, some body, scope, none⟩)
    (ht : Starts v e body scope s t) : Coherent t := by
  obtain ⟨f, hf, inRange, rooted⟩ := h.code v _ hc
  obtain rfl : e = f := Option.some.inj hf
  let made : UnitId := ⟨s.units.size⟩
  have entry : ∀ f, ∃ units, t.entry f = { s.entry f with units := (s.entry f).units ++ units } := by
    intro f
    rw [ht.entry]
    split
    · exact ⟨_, rfl⟩
    · exact ⟨[], by rw [List.append_nil]⟩
  have bodies : ∀ f b, t.hasBody f b ↔ s.hasBody f b := by
    intro f b
    obtain ⟨units, hu⟩ := entry f
    rw [hasBody, hasBody, hu]
  have scope? : ∀ w c, (t.form w).scope? = some c → (s.form w).scope? = some c := by
    intro w c hw
    rcases Form.of_scope? hw with ⟨p, hp, rfl⟩ | ⟨found, hfound, rfl⟩
    · exact Form.scope?_of_module? ((ht.module w).symm.trans hp)
    · rw [ht.code] at hfound
      split at hfound
      · next hv =>
        rw [hv, ← Option.some.inj hfound, Form.scope?_of_code? hc]
      · exact Form.scope?_of_code? hfound
  have alive : ∀ u, t.isAlive u = true →
      u = made ∧ (s.entry e).removed = false ∨ u ≠ made ∧ s.isAlive u = true ∧ t.unit u = s.unit u := by
    intro u hu
    rw [isAlive, ht.unit] at hu
    by_cases hm : u.index = s.units.size
    · rw [if_pos hm] at hu
      exact .inl ⟨UnitId.index_inj.1 hm, by simpa using hu⟩
    · rw [if_neg hm] at hu
      exact .inr ⟨fun he => hm (congrArg UnitId.index he), hu, by rw [ht.unit, if_neg hm]⟩
  have scopes : ∀ c, t.scope c = s.scope c := fun c => by rw [Session.scope, ht.scopes]; rfl
  have newest : t.unit made = ⟨some e, scope, body, (s.entry e).removed⟩ := by
    rw [ht.unit, if_pos rfl]
  constructor
  case owned =>
    intro w c hw
    rw [scopes, ht.scopes]
    exact h.owned w c (scope? w c hw)
  case modules =>
    intro f hf
    obtain ⟨units, hu⟩ := entry f
    rw [ht.entries] at hf
    obtain ⟨c, hc⟩ := h.modules f hf
    exact ⟨c, by rw [hu, ht.module, hc]⟩
  case moduleOf =>
    intro w p hp
    obtain ⟨units, hu⟩ := entry p.entry
    rw [ht.entries, hu]
    exact h.moduleOf w p ((ht.module w).symm.trans hp)
  case unitScope =>
    intro u hu
    rw [ht.scopes, ht.unit]
    split
    · exact (h.owned v scope (Form.scope?_of_code? hc)).1
    · next hm =>
      refine h.unitScope u ?_
      rw [ht.units] at hu
      omega
  case code =>
    intro w code hw
    rw [ht.code] at hw
    have of_old : ∀ code, (s.form w).code? = some code → ∃ e, code.entry = some e ∧
        e.index < t.entries.size ∧ ∀ body, code.body = some body → t.Rooted w e body := by
      intro code hw
      obtain ⟨f, hf, hr, hb⟩ := h.code w code hw
      obtain ⟨units, hu⟩ := entry f
      refine ⟨f, hf, by rwa [ht.entries], fun b hbody => ?_⟩
      rw [Rooted, bodies, hu]
      exact hb b hbody
    split at hw
    · next hv =>
      subst hv
      rw [← Option.some.inj hw]
      obtain ⟨f, hf, hr, hb⟩ := of_old _ hc
      exact ⟨f, hf, hr, hb⟩
    · exact of_old code hw
  case definitions =>
    intro f w hw
    obtain ⟨units, hu⟩ := entry f
    rw [hu] at hw
    obtain ⟨code, hcode, hf⟩ := h.definitions f w hw
    rw [ht.code]
    split
    · next hv =>
      subst hv
      rw [hc] at hcode
      rw [← Option.some.inj hcode] at hf
      exact ⟨_, rfl, hf⟩
    · exact ⟨code, hcode, hf⟩
  case observer =>
    intro u ha hu
    rw [scopes]
    rcases alive u ha with ⟨rfl, -⟩ | ⟨-, hs, same⟩
    · rw [newest] at hu
      cases hu
    · rw [same] at hu ⊢
      exact h.observer u hs hu
  case placed =>
    intro u f ha hu
    rcases alive u ha with ⟨rfl, present⟩ | ⟨hm, hs, same⟩
    · rw [newest] at hu
      obtain rfl : e = f := Option.some.inj hu
      have tracked := (ht.entry e).trans (if_pos ⟨rfl, inRange, present⟩)
      refine ⟨by rwa [ht.entries], by rw [tracked]; exact present,
        by rw [tracked]; exact List.mem_append_right _ (List.mem_singleton_self _), ?_, .inr ⟨v, ?_⟩⟩
      · rw [bodies, newest]
        rcases rooted body rfl with gone | ⟨-, has⟩
        · rw [present] at gone
          cases gone
        · exact has
      · rw [ht.code, if_pos rfl, newest]
    · rw [same] at hu
      have hp := h.placed u f hs hu
      obtain ⟨units, hunits⟩ := entry f
      refine ⟨by rw [ht.entries]; exact hp.inRange, by rw [hunits]; exact hp.present,
        by rw [hunits]; exact List.mem_append_left _ hp.tracked, by rw [bodies, same]; exact hp.body, ?_⟩
      refine hp.role.imp (fun heads => ?_) (Exists.imp fun w hw => ?_)
      · rw [Heads, hunits, same, ht.module]
        exact heads
      · have other : w ≠ v := by
          rintro rfl
          rw [hc] at hw
          cases hw
        rw [ht.code, if_neg other, same]
        exact hw
  case apart =>
    intro u w hu hw hscope
    rcases alive u hu with ⟨rfl, -⟩ | ⟨-, hus, husame⟩
    · rcases alive w hw with ⟨rfl, -⟩ | ⟨-, hws, hwsame⟩
      · rfl
      · rw [newest, hwsame] at hscope
        exact absurd hscope.symm (h.scope_ne hc rfl hws)
    · rcases alive w hw with ⟨rfl, -⟩ | ⟨-, hws, hwsame⟩
      · rw [newest, husame] at hscope
        exact absurd hscope (h.scope_ne hc rfl hus)
      · rw [husame, hwsame] at hscope
        exact h.apart u w hus hws hscope
  case waiting =>
    intro job hj
    rw [ht.queue] at hj
    obtain ⟨ha, same⟩ := h.waiting job hj
    have unit : t.unit job.unit = s.unit job.unit := by
      rw [ht.unit, if_neg (Nat.ne_of_lt (index_lt_of_isAlive ha))]
    rw [isAlive, Session.job, unit]
    exact ⟨ha, same⟩

/-- Making a function or class keeps a session coherent. -/
theorem defines (h : Coherent s) {kind : ValueKind} {u : UnitId} {body : Body} {e : EntryId}
    (hu : (s.unit u).entry = some e) (he : e.index < s.entries.size) (hb : s.hasBody e body)
    (ht : Defines kind u body s t) : Coherent t := by
  let made : ValueId := ⟨s.values.size⟩
  let home : ScopeId := ⟨s.scopes.size⟩
  have entry : ∀ f, ∃ more, t.entry f =
      { s.entry f with definitions := (s.entry f).definitions ++ more } := by
    intro f
    rw [ht.entry]
    split
    · exact ⟨_, rfl⟩
    · exact ⟨[], by rw [List.append_nil]⟩
  have tracked : made ∈ (t.entry e).definitions := by
    rw [ht.entry, if_pos ⟨hu, he⟩]
    exact List.mem_append_right _ (List.mem_singleton_self _)
  have bodies : ∀ f b, t.hasBody f b ↔ s.hasBody f b := by
    intro f b
    obtain ⟨more, hm⟩ := entry f
    rw [hasBody, hasBody, hm]
  have unit : ∀ w, t.unit w = s.unit w := fun w => by rw [Session.unit, ht.units]; rfl
  have alive : ∀ w, t.isAlive w = s.isAlive w := fun w => by rw [isAlive, unit]; rfl
  have newCode : (t.form made).code? = some ⟨some e, some body, home, none⟩ := by
    rw [ht.code, hu]
  have newForm : ∀ w : ValueId, w.index = s.values.size → w = made := fun w hw =>
    ValueId.index_inj.1 hw
  have form : ∀ w, w ≠ made → t.form w = s.form w := fun w hw => ht.form w fun hi => hw (newForm w hi)
  have fresh : s.form made = (default : Value).form := form_of_le (Nat.le_refl s.values.size)
  have none_old : ∀ code, (s.form made).code? ≠ some code := by
    intro code hc
    rw [fresh] at hc
    cases hc
  have module_old : ∀ p, (s.form made).module? ≠ some p := by
    intro p hp
    rw [fresh] at hp
    cases hp
  have owner : ∀ c, c.index < s.scopes.size → (t.scope c).owner = (s.scope c).owner := fun c hc => by
    rw [ht.owner, if_neg (Nat.ne_of_lt hc)]
  constructor
  case owned =>
    intro w c hw
    by_cases hm : w = made
    · subst hm
      rw [Form.scope?_of_code? newCode] at hw
      cases hw
      rw [ht.scopes, ht.owner, if_pos rfl]
      exact ⟨Nat.lt_succ_self _, rfl⟩
    · rw [form w hm] at hw
      obtain ⟨hc, ho⟩ := h.owned w c hw
      rw [ht.scopes, owner c hc]
      exact ⟨Nat.lt_succ_of_lt hc, ho⟩
  case modules =>
    intro f hf
    rw [ht.entries] at hf
    obtain ⟨more, hmore⟩ := entry f
    obtain ⟨c, hc⟩ := h.modules f hf
    have other : (s.entry f).module ≠ made := fun hm => module_old _ (hm ▸ hc)
    exact ⟨c, by rw [hmore, form _ other, hc]⟩
  case moduleOf =>
    intro w p hp
    have other : w ≠ made := by
      rintro rfl
      rw [Form.code?_of_module? hp] at newCode
      cases newCode
    rw [form w other] at hp
    obtain ⟨more, hmore⟩ := entry p.entry
    rw [ht.entries, hmore]
    exact h.moduleOf w p hp
  case unitScope =>
    intro w hw
    rw [ht.units] at hw
    rw [unit, ht.scopes]
    exact Nat.lt_succ_of_lt (h.unitScope w hw)
  case code =>
    intro w code hw
    by_cases hm : w = made
    · subst hm
      rw [newCode] at hw
      rw [← Option.some.inj hw]
      refine ⟨e, rfl, by rwa [ht.entries], fun b hbody => .inr ⟨tracked, ?_⟩⟩
      rw [bodies, ← Option.some.inj hbody]
      exact hb
    · rw [form w hm] at hw
      obtain ⟨f, hf, hr, hrooted⟩ := h.code w code hw
      obtain ⟨more, hmore⟩ := entry f
      refine ⟨f, hf, by rwa [ht.entries], fun b hbody => ?_⟩
      rw [Rooted, bodies, hmore]
      exact (hrooted b hbody).imp id fun found => ⟨List.mem_append_left _ found.1, found.2⟩
  case definitions =>
    intro f w hw
    rw [ht.entry] at hw
    have old : w ∈ (s.entry f).definitions → ∃ code, (t.form w).code? = some code ∧ code.entry = some f := by
      intro hw
      obtain ⟨code, hcode, hf⟩ := h.definitions f w hw
      have other : w ≠ made := fun hm => none_old _ (hm ▸ hcode)
      exact ⟨code, by rw [form w other, hcode], hf⟩
    split at hw
    · next hf =>
      rcases List.mem_append.1 hw with hw | hw
      · exact old hw
      · rw [List.mem_singleton.1 hw]
        exact ⟨_, newCode, hu.symm.trans hf.1⟩
    · exact old hw
  case observer =>
    intro w ha hw
    rw [alive] at ha
    rw [unit] at hw ⊢
    rw [owner _ (h.unitScope w (index_lt_of_isAlive ha))]
    exact h.observer w ha hw
  case placed =>
    intro w f ha hw
    rw [alive] at ha
    rw [unit] at hw
    have hp := h.placed w f ha hw
    obtain ⟨more, hmore⟩ := entry f
    refine ⟨by rw [ht.entries]; exact hp.inRange, by rw [hmore]; exact hp.present,
      by rw [hmore]; exact hp.tracked, by rw [bodies, unit]; exact hp.body, ?_⟩
    refine hp.role.imp (fun heads => ?_) (Exists.imp fun v hv => ?_)
    · have other : (s.entry f).module ≠ made := fun hm => module_old _ (hm ▸ heads.2)
      rw [Heads, hmore, unit, form _ other]
      exact heads
    · have other : v ≠ made := fun hm => none_old _ (hm ▸ hv)
      rw [form v other, unit]
      exact hv
  case apart =>
    intro v w hv hw hc
    rw [alive] at hv hw
    rw [unit, unit] at hc
    exact h.apart v w hv hw hc
  case waiting =>
    intro job hj
    rw [ht.queue] at hj
    rw [alive, Session.job, unit]
    exact h.waiting job hj

end Coherent

theorem Still.of_step {L : Licence} {s t : Session} (h : Step L s t) :
    Still L.keep s t ∨ (∃ v place, t = after (enqueueBody v place) s) ∨
      ∃ u body make, L.define u body ∧ Makes body.kind u body make ∧
        t = after (definitionAt u body.node body.kind make) s := by
  cases h with
  | bookkeep h => exact .inl (.of_bookkeeping h)
  | makeValue value h free => exact .inl (.of_newValue value h)
  | amendValue v value h rest =>
    exact .inl (.of_setValue (congrArg Form.code? h) (congrArg Form.module? h) (congrArg Form.kind h))
  | resolve cls on => exact .inl (.setResolving cls on)
  | attributeOf v name => exact .inl (.attributeOf v name)
  | newVariable cap => exact .inl (.of_records _)
  | nameIn scope name => exact .inl (.nameIn scope name)
  | addTypes x values => exact .inl (.addTypes x values)
  | addReader x reader => exact .inl (.of_records _)
  | addAssignment x place => exact .inl (.of_records _)
  | addReference x place => exact .inl (.of_records _)
  | keepValue scope node values h => exact .inl (.setNodeValue scope values h)
  | enqueue u place => exact .inl (.enqueue u place)
  | clearModule m => exact .inl (.clearModule m)
  | enqueueBody v place => exact .inr (.inl ⟨v, place, rfl⟩)
  | enqueueEntry e => exact .inl (.enqueueEntry e)
  | defineFunction u body name params h kind =>
    exact .inr (.inr ⟨u, body, _, h, kind ▸ makes_newFunction u body name params, by rw [kind]⟩)
  | defineClass u body name h kind =>
    exact .inr (.inr ⟨u, body, _, h, kind ▸ makes_newClass u body name, by rw [kind]⟩)

/-- What one step does to a coherent session: nothing new is defined, or a definition gets its unit,
or a definition is made. -/
inductive Shape (L : Licence) (s t : Session) : Prop
  | still (h : Still L.keep s t)
  | starts (v : ValueId) (e : EntryId) (body : Body) (scope : ScopeId) (place : QueueEnd) (r : Session)
      (code : (s.form v).code? = some ⟨some e, some body, scope, none⟩)
      (h : Starts v e body scope s r) (queued : t = after (enqueue ⟨s.units.size⟩ place) r)
      (still : Still L.keep r t)
  | defines (u : UnitId) (body : Body) (licensed : L.define u body) (h : Defines body.kind u body s t)

theorem Step.shape {L : Licence} {s t : Session} (h : Coherent s) (hs : Step L s t) : Shape L s t := by
  rcases Still.of_step hs with still | ⟨v, place, rfl⟩ | ⟨u, body, make, licensed, makes, rfl⟩
  · exact .still still
  · rcases after_enqueueBody v place s with ⟨-, ends⟩ | ⟨code, body, hc, hb, started⟩
    · rw [ends]
      exact .still (.refl s)
    · rcases started with ⟨u, -, ends⟩ | ⟨hu, ends⟩
      · rw [ends]
        exact .still (.enqueue u place)
      · obtain ⟨e, he, -⟩ := h.code v code hc
        obtain ⟨entry, body?, scope, unit?⟩ := code
        obtain rfl : entry = some e := he
        obtain rfl : body? = some body := hb
        obtain rfl : unit? = none := hu
        exact .starts v e body scope place _ hc (starts_withUnitFor hc) ends (ends ▸ .enqueue _ place)
  · rcases definitionAt_run makes s with ⟨values, -, run⟩ | ⟨-, t, run, defined⟩
    · rw [after_of_ok run]
      exact .still (.refl s)
    · rw [after_of_ok run]
      exact .defines u body licensed defined

theorem Licence.Sound.mono {L : Licence} {s t : Session} (h : L.Sound s)
    (units : s.units.size ≤ t.units.size)
    (unit : ∀ u, u.index < s.units.size → (t.unit u).entry = (s.unit u).entry)
    (entries : t.entries.size = s.entries.size)
    (tree : ∀ e, (t.entry e).tree = (s.entry e).tree) : L.Sound t := by
  intro u body hd
  obtain ⟨hu, e, he, inRange, hb⟩ := h u body hd
  refine ⟨Nat.lt_of_lt_of_le hu units, e, (unit u hu).trans he, by rwa [entries], ?_⟩
  rw [hasBody, tree]
  exact hb

theorem Licence.Sound.step {L : Licence} {s t : Session} (h : L.Sound s) (hc : Coherent s)
    (hs : Step L s t) : L.Sound t := by
  have still : ∀ {r t : Session}, L.Sound r → Still L.keep r t → L.Sound t := by
    intro r t hr ht
    refine hr.mono (Nat.le_of_eq (by rw [ht.units])) (fun u _ => by rw [ht.unit]) ht.entries fun e => ?_
    obtain ⟨n, hn⟩ := ht.entry e
    rw [hn]
  cases hs.shape hc with
  | still ht => exact still h ht
  | starts v e body scope place r code hr _ enqueued =>
    refine still (h.mono (by rw [hr.units]; exact Nat.le_succ _) (fun u hu => ?_) hr.entries fun f => ?_)
      enqueued
    · rw [hr.unit, if_neg (Nat.ne_of_lt hu)]
    · rw [hr.entry]
      split <;> rfl
  | defines u body licensed ht =>
    refine h.mono (Nat.le_of_eq (by rw [ht.units])) (fun u _ => ?_) ht.entries fun f => ?_
    · rw [Session.unit, ht.units]
      rfl
    · rw [ht.entry]
      split <;> rfl

/-- One step keeps a session coherent. -/
theorem Coherent.step {L : Licence} {s t : Session} (h : Coherent s) (hl : L.Sound s)
    (hs : Step L s t) : Coherent t := by
  cases hs.shape h with
  | still ht => exact h.still ht
  | starts v e body scope place r code hr _ enqueued => exact (h.starts code hr).still enqueued
  | defines u body licensed ht =>
    obtain ⟨-, e, he, inRange, hb⟩ := hl u body licensed
    exact h.defines he inRange hb ht

/-- A unit of a module that may run is licensed to define what its body defines. -/
theorem Coherent.licence_sound {s : Session} (h : Coherent s) {u : UnitId}
    (ha : s.isAlive u = true) {e : EntryId} (he : (s.unit u).entry = some e) :
    (licence u (s.unit u).body).Sound s := by
  rintro v body ⟨rfl, hb⟩
  have hp := h.placed v e ha he
  obtain ⟨tree, ht, hm⟩ := hp.body
  exact ⟨index_lt_of_isAlive ha, e, he, hp.inRange, tree, ht, Tree.bodies_inner hm hb⟩

end Typeflow.Session
