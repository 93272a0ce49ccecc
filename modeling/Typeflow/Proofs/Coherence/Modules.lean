import Typeflow.Proofs.Coherence.Step
import Typeflow.Proofs.Effect.Retire

/-! Adding, changing and removing modules keeps a session coherent, and retires what goes away. -/
namespace Typeflow.Session

def RunsIn (s : Session) (e : EntryId) (u : UnitId) : Prop :=
  s.isAlive u = true ∧ (s.unit u).entry = some e

namespace Coherent

variable {s t : Session}

/-- Retiring the units of a module keeps a session coherent if the module is given another tree and its
definitions are cut off, or if it is removed; then none of its units may run. -/
theorem retires (h : Coherent s) {e : EntryId} (change : Entry → Entry) {detaching : Bool}
    (module : ∀ entry, (change entry).module = entry.module)
    (tracked : ∀ entry, (change entry).units = entry.units)
    (defined : ∀ entry, (change entry).definitions = entry.definitions)
    (stays : ∀ entry, entry.removed = true → (change entry).removed = true)
    (gone : detaching = true ∨ ∀ entry, (change entry).removed = true)
    (ht : Retires e detaching { s with entries := s.entries.modify e.index change } t) :
    Coherent t ∧ ∀ u, ¬ t.RunsIn e u := by
  let r : Session := { s with entries := s.entries.modify e.index change }
  have changed : ∀ f, r.entry f = if f = e ∧ e.index < s.entries.size then change (s.entry f)
      else s.entry f := fun f => entry_modify s e f change
  have unitsOf : (r.entry e).units = (s.entry e).units := by
    rw [changed]
    split
    · exact tracked _
    · rfl
  have definitionsOf : (r.entry e).definitions = (s.entry e).definitions := by
    rw [changed]
    split
    · exact defined _
    · rfl
  have size : t.entries.size = s.entries.size := by
    rw [ht.entries]
    simp
  have scopes : t.scopes = s.scopes := by rw [ht.frame]
  have scope : ∀ c, t.scope c = s.scope c := fun c => by rw [Session.scope, scopes]; rfl
  have moduleOfEntry : ∀ f, (t.entry f).module = (s.entry f).module := by
    intro f
    rw [ht.entry, show Session.entry _ f = r.entry f from rfl, changed]
    split <;> split <;> first | rfl | exact module _
  have other : ∀ f, f ≠ e → t.entry f = s.entry f := by
    intro f hf
    rw [ht.entry, if_neg fun h => hf h.1]
    exact (changed f).trans (if_neg fun h => hf h.1)
  have module? : ∀ v, (t.form v).module? = (s.form v).module? := by
    intro v
    rw [ht.form]
    split
    · rw [module?_mapCode]
      rfl
    · rfl
  have code? : ∀ v, (t.form v).code? =
      if detaching = true ∧ v ∈ (s.entry e).definitions then (s.form v).code?.map cut
      else (s.form v).code? := by
    intro v
    rw [ht.form, show (Session.entry _ e).definitions = (r.entry e).definitions from rfl, definitionsOf]
    split
    · rw [code?_mapCode]
      rfl
    · rfl
  have scope? : ∀ v c, (t.form v).scope? = some c → (s.form v).scope? = some c := by
    intro v c hv
    rcases Form.of_scope? hv with ⟨p, hp, rfl⟩ | ⟨code, hcode, rfl⟩
    · exact Form.scope?_of_module? ((module? v).symm.trans hp)
    · rw [code?] at hcode
      split at hcode
      · obtain ⟨old, hold, rfl⟩ := Option.map_eq_some_iff.1 hcode
        have owns := Form.scope?_of_code? hold
        exact owns
      · exact Form.scope?_of_code? hcode
  have unit : ∀ u, t.unit u =
      if u ∈ (s.entry e).units then { s.unit u with retired := true } else s.unit u := by
    intro u
    rw [ht.unit, show (Session.entry _ e).units = (r.entry e).units from rfl, unitsOf]
    rfl
  have alive : ∀ u, t.isAlive u = true → s.isAlive u = true ∧ t.unit u = s.unit u := by
    intro u hu
    rw [isAlive, unit] at hu
    split at hu
    · cases hu
    · next hm => exact ⟨hu, by rw [unit, if_neg hm]⟩
  have none : ∀ u, ¬ t.RunsIn e u := by
    rintro u ⟨ha, he⟩
    obtain ⟨hs, same⟩ := alive u ha
    rw [same] at he
    rw [isAlive, unit, if_pos (h.placed u e hs he).tracked] at ha
    cases ha
  refine ⟨?_, none⟩
  constructor
  case owned =>
    intro v c hv
    rw [scope, scopes]
    exact h.owned v c (scope? v c hv)
  case modules =>
    intro f hf
    rw [size] at hf
    rw [moduleOfEntry, module?]
    exact h.modules f hf
  case moduleOf =>
    intro v p hp
    rw [size, moduleOfEntry]
    exact h.moduleOf v p ((module? v).symm.trans hp)
  case unitScope =>
    intro u hu
    rw [ht.units] at hu
    have same : (t.unit u).scope = (s.unit u).scope := by
      rw [unit]
      split <;> rfl
    rw [same, scopes]
    exact h.unitScope u hu
  case code =>
    intro v code hcode
    rw [code?] at hcode
    split at hcode
    · obtain ⟨old, hold, rfl⟩ := Option.map_eq_some_iff.1 hcode
      obtain ⟨f, hf, hr, -⟩ := h.code v old hold
      refine ⟨f, hf, by rwa [size], ?_⟩
      intro body hb
      cases hb
    · next hn =>
      obtain ⟨f, hf, hr, rooted⟩ := h.code v code hcode
      refine ⟨f, hf, by rwa [size], fun body hb => ?_⟩
      by_cases hfe : f = e
      · subst hfe
        have removed : (r.entry f).removed = true → (t.entry f).removed = true := by
          intro hrem
          rw [ht.entry]
          split
          · exact hrem
          · exact hrem
        refine .inl (removed ?_)
        rw [changed, if_pos ⟨rfl, hr⟩]
        rcases rooted body hb with hgone | ⟨hdef, -⟩
        · exact stays _ hgone
        · exact gone.elim (fun hd => absurd ⟨hd, hdef⟩ hn) fun hall => hall _
      · rw [Rooted, hasBody, other f hfe]
        exact rooted body hb
  case definitions =>
    intro f v hv
    by_cases hfe : f = e
    · subst hfe
      rw [ht.entry] at hv
      split at hv
      · cases hv
      · next hn =>
        have same : r.entry f = s.entry f := by
          rw [changed, if_neg]
          simpa [r] using hn
        have hv : v ∈ (r.entry f).definitions := hv
        rw [same] at hv
        have out : s.entries.size ≤ f.index := by
          simpa [r] using hn
        rw [entry_of_le out] at hv
        cases hv
    · rw [other f hfe] at hv
      obtain ⟨code, hcode, hf⟩ := h.definitions f v hv
      rw [code?]
      split
      · exact ⟨cut code, by rw [hcode]; rfl, hf⟩
      · exact ⟨code, hcode, hf⟩
  case observer =>
    intro u ha hu
    obtain ⟨hs, same⟩ := alive u ha
    rw [same] at hu ⊢
    rw [scope]
    exact h.observer u hs hu
  case placed =>
    intro u f ha hu
    obtain ⟨hs, same⟩ := alive u ha
    have hfe : f ≠ e := by
      rintro rfl
      exact none u ⟨ha, hu⟩
    rw [same] at hu
    have hp := h.placed u f hs hu
    refine ⟨by rw [size]; exact hp.inRange, by rw [other f hfe]; exact hp.present,
      by rw [other f hfe]; exact hp.tracked, by rw [hasBody, other f hfe, same]; exact hp.body, ?_⟩
    refine hp.role.imp (fun heads => ?_) (Exists.imp fun v hv => ?_)
    · rw [Heads, other f hfe, same, module?]
      exact heads
    · have kept : v ∉ (s.entry e).definitions := by
        intro hd
        obtain ⟨code, hcode, hce⟩ := h.definitions e v hd
        rw [hv] at hcode
        rw [← Option.some.inj hcode] at hce
        exact hfe (Option.some.inj hce)
      rw [code?, if_neg fun hd => kept hd.2, same]
      exact hv
  case apart =>
    intro u w hu hw hc
    obtain ⟨hus, hsame⟩ := alive u hu
    obtain ⟨hws, hwsame⟩ := alive w hw
    rw [hsame, hwsame] at hc
    exact h.apart u w hus hws hc
  case waiting =>
    intro job hj
    rw [ht.queue] at hj
    obtain ⟨hj, ha⟩ := WorkQueue.mem_keepAlive.1 hj
    refine ⟨ha, ?_⟩
    rw [Session.job, (alive _ ha).2]
    exact (h.waiting job hj).2

section Head

variable {e : EntryId} {c : ScopeId} {body : Body}

theorem unit_withHead (s : Session) (e : EntryId) (c : ScopeId) (body : Body) (u : UnitId) :
    (s.withHead e c body).unit u =
      if u.index = s.units.size then ⟨some e, c, body, (s.entry e).removed⟩ else s.unit u :=
  unit_withUnit s (some e) c body u

theorem entry_withHead (s : Session) (e : EntryId) (c : ScopeId) (body : Body) (f : EntryId) :
    ∃ more, (s.withHead e c body).entry f =
        { s.entry f with
          units := (s.entry f).units ++ more
          unit := if f = e ∧ e.index < s.entries.size then some ⟨s.units.size⟩ else (s.entry f).unit } ∧
      (f = e → e.index < s.entries.size → (s.entry e).removed = false → ⟨s.units.size⟩ ∈ more) := by
  let r := s.withUnit (some e) c body
  have look : (s.withHead e c body).entry f =
      if f = e ∧ e.index < s.entries.size then
        { r.entry f with unit := some ⟨s.units.size⟩ } else r.entry f := by
    rw [← entries_withUnit s (some e) c body]
    exact entry_modify r e f _
  rw [look, show r.entry f = _ from entry_withUnit s (some e) c body f]
  by_cases hf : f = e
  · subst hf
    by_cases hr : f.index < s.entries.size
    · by_cases hp : (s.entry f).removed = false
      · exact ⟨[⟨s.units.size⟩], by simp [hr, hp], fun _ _ _ => List.mem_singleton_self _⟩
      · exact ⟨[], by simp [hr, hp], fun _ _ h => absurd h hp⟩
    · exact ⟨[], by simp [hr], fun _ h => absurd h hr⟩
  · refine ⟨[], ?_, fun h => absurd h hf⟩
    rw [if_neg fun h => hf h.1, if_neg fun h => hf (Option.some.inj h.1).symm,
      if_neg fun h => hf h.1, List.append_nil]

private theorem entries_withHead (s : Session) (e : EntryId) (c : ScopeId) (body : Body) :
    (s.withHead e c body).entries.size = s.entries.size := by
  rw [← entries_withUnit s (some e) c body]
  exact Array.size_modify ..

/-- A module none of whose units may run can be given the unit of its current tree. -/
theorem withHead (h : Coherent s) (inRange : e.index < s.entries.size)
    (hm : (s.form (s.entry e).module).module? = some ⟨e, c⟩) {tree : Tree}
    (ht : (s.entry e).tree = some tree) (none : ∀ u, ¬ s.RunsIn e u) :
    Coherent (s.withHead e c tree.toBody) := by
  let t := s.withHead e c tree.toBody
  let made : UnitId := ⟨s.units.size⟩
  have entry : ∀ f, ∃ more, t.entry f = { s.entry f with
      units := (s.entry f).units ++ more
      unit := if f = e ∧ e.index < s.entries.size then some made else (s.entry f).unit } := fun f => by
    obtain ⟨more, hmore, -⟩ := entry_withHead s e c tree.toBody f
    exact ⟨more, hmore⟩
  have size : t.entries.size = s.entries.size := entries_withHead s e c tree.toBody
  have units : t.units.size = s.units.size + 1 := by simp [t, Session.withHead, withUnit]
  have unit := unit_withHead s e c tree.toBody
  have bodies : ∀ f b, t.hasBody f b ↔ s.hasBody f b := by
    intro f b
    obtain ⟨more, hmore⟩ := entry f
    rw [hasBody, hasBody, hmore]
  have newest : t.unit made = ⟨some e, c, tree.toBody, (s.entry e).removed⟩ :=
    (unit made).trans (if_pos rfl)
  have alive : ∀ u, t.isAlive u = true →
      u = made ∧ (s.entry e).removed = false ∨ s.isAlive u = true ∧ t.unit u = s.unit u := by
    intro u hu
    rw [isAlive, show t.unit u = _ from unit u] at hu
    by_cases hi : u.index = s.units.size
    · rw [if_pos hi] at hu
      exact .inl ⟨UnitId.index_inj.1 hi, by simpa using hu⟩
    · rw [if_neg hi] at hu
      exact .inr ⟨hu, (unit u).trans (if_neg hi)⟩
  have scope_ne : ∀ u, s.isAlive u = true → (s.unit u).scope ≠ c := by
    intro u hu same
    have owner : (s.scope (s.unit u).scope).owner = some (s.entry e).module := by
      rw [same]
      exact (h.owned _ _ (Form.scope?_of_module? hm)).2
    cases hf : (s.unit u).entry with
    | none =>
      rw [(h.observer u hu hf).1] at owner
      cases owner
    | some f =>
      rcases (h.placed u f hu hf).role with heads | ⟨v, hv⟩
      · have same := (h.owned _ _ (Form.scope?_of_module? heads.2)).2.symm.trans owner
        have form := heads.2
        rw [Option.some.inj same, hm] at form
        have hef : e = f := congrArg ProjectModule.entry (Option.some.inj form)
        exact none u ⟨hu, by rw [hf, hef]⟩
      · have same := (h.owned _ _ (Form.scope?_of_code? hv)).2.symm.trans owner
        rw [Option.some.inj same, Form.code?_of_module? hm] at hv
        cases hv
  constructor
  case owned => exact h.owned
  case modules =>
    intro f hf
    rw [size] at hf
    obtain ⟨more, hmore⟩ := entry f
    rw [hmore]
    exact h.modules f hf
  case moduleOf =>
    intro v p hp
    obtain ⟨more, hmore⟩ := entry p.entry
    rw [size, hmore]
    exact h.moduleOf v p hp
  case unitScope =>
    intro u hu
    rw [units] at hu
    rw [show t.unit u = _ from unit u]
    split
    · exact (h.owned _ _ (Form.scope?_of_module? hm)).1
    · exact h.unitScope u (by omega)
  case code =>
    intro v code hc
    obtain ⟨f, hf, hr, rooted⟩ := h.code v code hc
    obtain ⟨more, hmore⟩ := entry f
    refine ⟨f, hf, by rwa [size], fun b hb => ?_⟩
    rw [Rooted, bodies, hmore]
    exact rooted b hb
  case definitions =>
    intro f v hv
    obtain ⟨more, hmore⟩ := entry f
    rw [hmore] at hv
    exact h.definitions f v hv
  case observer =>
    intro u ha hu
    rcases alive u ha with ⟨rfl, -⟩ | ⟨hs, same⟩
    · rw [newest] at hu
      cases hu
    · rw [same] at hu ⊢
      exact h.observer u hs hu
  case placed =>
    intro u f ha hu
    rcases alive u ha with ⟨rfl, present⟩ | ⟨hs, same⟩
    · rw [newest] at hu
      obtain rfl : e = f := Option.some.inj hu
      obtain ⟨more, hmore, mem⟩ := entry_withHead s e c tree.toBody e
      refine ⟨by rwa [size], by rw [hmore]; exact present,
        by rw [hmore]; exact List.mem_append_right _ (mem rfl inRange present),
        by rw [bodies, newest]; exact ⟨tree, ht, tree.toBody_mem_bodies⟩, .inl ⟨?_, ?_⟩⟩
      · rw [hmore]
        exact if_pos ⟨rfl, inRange⟩
      · rw [hmore, newest]
        exact hm
    · rw [same] at hu
      have hfe : f ≠ e := by
        rintro rfl
        exact none u ⟨hs, hu⟩
      have hp := h.placed u f hs hu
      obtain ⟨more, hmore⟩ := entry f
      rw [if_neg fun h => hfe h.1] at hmore
      refine ⟨by rw [size]; exact hp.inRange, by rw [hmore]; exact hp.present,
        by rw [hmore]; exact List.mem_append_left _ hp.tracked,
        by rw [bodies, same]; exact hp.body, ?_⟩
      refine hp.role.imp (fun heads => ?_) (Exists.imp fun v hv => ?_)
      · rw [Heads, hmore, same]
        exact heads
      · rw [same]
        exact hv
  case apart =>
    intro u w hu hw hscope
    rcases alive u hu with ⟨rfl, -⟩ | ⟨hus, husame⟩
    · rcases alive w hw with ⟨rfl, -⟩ | ⟨hws, hwsame⟩
      · rfl
      · rw [newest, hwsame] at hscope
        exact absurd hscope.symm (scope_ne w hws)
    · rcases alive w hw with ⟨rfl, -⟩ | ⟨hws, hwsame⟩
      · rw [newest, husame] at hscope
        exact absurd hscope (scope_ne u hus)
      · rw [husame, hwsame] at hscope
        exact h.apart u w hus hws hscope
  case waiting =>
    intro job hj
    obtain ⟨ha, same⟩ := h.waiting job hj
    have kept : t.unit job.unit = s.unit job.unit :=
      (unit _).trans (if_neg (Nat.ne_of_lt (index_lt_of_isAlive ha)))
    rw [isAlive, Session.job, kept]
    exact ⟨ha, same⟩

end Head

/-- Adding a module keeps a session coherent. -/
theorem withEntry (h : Coherent s) (name path : String) : Coherent (s.withEntry name path) := by
  let t := s.withEntry name path
  let made : ValueId := ⟨s.values.size⟩
  let e : EntryId := ⟨s.entries.size⟩
  let c : ScopeId := ⟨s.scopes.size⟩
  have form : ∀ v, t.form v = if v.index = s.values.size then .module ⟨e, c⟩ else s.form v := by
    intro v
    simp only [t, Session.form, Session.value, Session.withEntry, getD_push]
    split <;> rfl
  have scope : ∀ d : ScopeId, d.index < s.scopes.size → t.scope d = s.scope d := by
    intro d hd
    simp only [t, Session.scope, Session.withEntry, getD_push, Nat.ne_of_lt hd, if_false]
  have home : (t.scope c).owner = some made := by
    simp only [t, c, Session.scope, Session.withEntry, getD_push, if_true]
    rfl
  have entry : ∀ f : EntryId, f.index ≠ s.entries.size → t.entry f = s.entry f := by
    intro f hf
    simp only [t, Session.entry, Session.withEntry, getD_push, hf, if_false]
  have newest : t.entry e = { name, path, module := made } := by
    simp only [t, e, Session.entry, Session.withEntry, getD_push, if_true]
    rfl
  have fresh : s.form made = (default : Value).form := form_of_le (Nat.le_refl s.values.size)
  have newForm : t.form made = .module ⟨e, c⟩ := (form made).trans (if_pos rfl)
  have old : ∀ v, v ≠ made → t.form v = s.form v := fun v hv =>
    (form v).trans (if_neg fun hi => hv (ValueId.index_inj.1 hi))
  have sizes : t.scopes.size = s.scopes.size + 1 ∧ t.entries.size = s.entries.size + 1 := by
    simp [t, Session.withEntry]
  have codes : ∀ v code, (s.form v).code? = some code → v ≠ made := by
    rintro v code hc rfl
    rw [fresh] at hc
    cases hc
  have modules : ∀ v p, (s.form v).module? = some p → v ≠ made := by
    rintro v p hp rfl
    rw [fresh] at hp
    cases hp
  have known : ∀ f : EntryId, f.index < s.entries.size → t.entry f = s.entry f :=
    fun f hf => entry f (Nat.ne_of_lt hf)
  constructor
  case owned =>
    intro v d hv
    by_cases hm : v = made
    · subst hm
      rw [newForm] at hv
      cases hv
      exact ⟨by rw [sizes.1]; exact Nat.lt_succ_self _, home⟩
    · rw [old v hm] at hv
      obtain ⟨hd, ho⟩ := h.owned v d hv
      exact ⟨by rw [sizes.1]; exact Nat.lt_succ_of_lt hd, by rw [scope d hd, ho]⟩
  case modules =>
    intro f hf
    by_cases hfe : f = e
    · subst hfe
      exact ⟨c, by rw [newest, newForm]; rfl⟩
    · have hlt : f.index < s.entries.size := by
        have : f.index ≠ s.entries.size := fun hi => hfe (EntryId.index_inj.1 hi)
        rw [sizes.2] at hf
        omega
      obtain ⟨d, hd⟩ := h.modules f hlt
      exact ⟨d, by rw [known f hlt, old _ (modules _ _ hd), hd]⟩
  case moduleOf =>
    intro v p hp
    by_cases hm : v = made
    · subst hm
      rw [newForm] at hp
      cases hp
      exact ⟨by rw [sizes.2]; exact Nat.lt_succ_self _, by rw [newest]⟩
    · rw [old v hm] at hp
      obtain ⟨hr, hv⟩ := h.moduleOf v p hp
      exact ⟨by rw [sizes.2]; exact Nat.lt_succ_of_lt hr, by rw [known _ hr, hv]⟩
  case unitScope =>
    intro u hu
    rw [sizes.1]
    exact Nat.lt_succ_of_lt (h.unitScope u hu)
  case code =>
    intro v code hc
    have hm : v ≠ made := by
      rintro rfl
      rw [newForm] at hc
      cases hc
    rw [old v hm] at hc
    obtain ⟨f, hf, hr, rooted⟩ := h.code v code hc
    refine ⟨f, hf, by rw [sizes.2]; exact Nat.lt_succ_of_lt hr, fun b hb => ?_⟩
    rw [Rooted, hasBody, known f hr]
    exact rooted b hb
  case definitions =>
    intro f v hv
    by_cases hfe : f = e
    · subst hfe
      rw [newest] at hv
      cases hv
    · rw [entry f fun hi => hfe (EntryId.index_inj.1 hi)] at hv
      obtain ⟨code, hc, hf⟩ := h.definitions f v hv
      exact ⟨code, by rw [old v (codes v code hc), hc], hf⟩
  case observer =>
    intro u ha hu
    obtain ⟨ho, hb⟩ := h.observer u ha hu
    exact ⟨(congrArg Scope.owner (scope _ (h.unitScope u (index_lt_of_isAlive ha)))).trans ho, hb⟩
  case placed =>
    intro u f ha hu
    have hp := h.placed u f ha hu
    have same := known f hp.inRange
    refine ⟨by rw [sizes.2]; exact Nat.lt_succ_of_lt hp.inRange, by rw [same]; exact hp.present,
      by rw [same]; exact hp.tracked, by rw [hasBody, same]; exact hp.body, ?_⟩
    refine hp.role.imp (fun heads => ?_) (Exists.imp fun v hv => ?_)
    · rw [Heads, same, old _ (modules _ _ heads.2)]
      exact heads
    · rw [old v (codes v _ hv)]
      exact hv
  case apart => exact h.apart
  case waiting => exact h.waiting

/-- Making a unit to ask questions from keeps a session coherent. -/
theorem withObserver (h : Coherent s) : Coherent s.withObserver := by
  let t := s.withObserver
  let made : UnitId := ⟨s.units.size⟩
  let c : ScopeId := ⟨s.scopes.size⟩
  have unit : ∀ u, t.unit u = if u.index = s.units.size then
      ⟨none, c, ⟨⟨.module, { id := ⟨s.nextNode⟩ }⟩, []⟩, false⟩ else s.unit u :=
    unit_withUnit s.withLoose none c _
  have scope : ∀ d : ScopeId, (t.scope d).owner =
      if d.index = s.scopes.size then none else (s.scope d).owner := by
    intro d
    have pushed : t.scope d = if d.index = s.scopes.size then {} else s.scope d := by
      simp only [t, Session.scope, Session.withObserver, withUnit, withLoose, getD_push]
    rw [pushed]
    split <;> rfl
  have owner : ∀ d : ScopeId, d.index < s.scopes.size → (t.scope d).owner = (s.scope d).owner :=
    fun d hd => (scope d).trans (if_neg (Nat.ne_of_lt hd))
  have sizes : t.scopes.size = s.scopes.size + 1 ∧ t.units.size = s.units.size + 1 := by
    simp [t, Session.withObserver, withUnit, withLoose]
  have newest : t.unit made = ⟨none, c, ⟨⟨.module, { id := ⟨s.nextNode⟩ }⟩, []⟩, false⟩ :=
    (unit made).trans (if_pos rfl)
  have alive : ∀ u, t.isAlive u = true → u = made ∨ s.isAlive u = true ∧ t.unit u = s.unit u := by
    intro u hu
    rw [isAlive, unit] at hu
    by_cases hi : u.index = s.units.size
    · exact .inl (UnitId.index_inj.1 hi)
    · rw [if_neg hi] at hu
      exact .inr ⟨hu, (unit u).trans (if_neg hi)⟩
  have scope_ne : ∀ u, s.isAlive u = true → (s.unit u).scope ≠ c := fun u hu same =>
    absurd (congrArg ScopeId.index same) (Nat.ne_of_lt (h.unitScope u (index_lt_of_isAlive hu)))
  constructor
  case owned =>
    intro v d hv
    obtain ⟨hd, ho⟩ := h.owned v d hv
    exact ⟨by rw [sizes.1]; exact Nat.lt_succ_of_lt hd, by rw [owner d hd, ho]⟩
  case modules => exact h.modules
  case moduleOf => exact h.moduleOf
  case unitScope =>
    intro u hu
    rw [unit, sizes.1]
    split
    · exact Nat.lt_succ_self _
    · rw [sizes.2] at hu
      exact Nat.lt_succ_of_lt (h.unitScope u (by omega))
  case code => exact h.code
  case definitions => exact h.definitions
  case observer =>
    intro u ha hu
    rcases alive u ha with rfl | ⟨hs, same⟩
    · rw [newest]
      exact ⟨(scope c).trans (if_pos rfl), rfl⟩
    · rw [same] at hu ⊢
      rw [owner _ (h.unitScope u (index_lt_of_isAlive hs))]
      exact h.observer u hs hu
  case placed =>
    intro u f ha hu
    rcases alive u ha with rfl | ⟨hs, same⟩
    · rw [newest] at hu
      cases hu
    · rw [same] at hu
      have hp := h.placed u f hs hu
      refine ⟨hp.inRange, hp.present, hp.tracked, by rw [same]; exact hp.body, ?_⟩
      refine hp.role.imp (fun heads => ?_) (Exists.imp fun v hv => ?_)
      · rw [Heads, same]
        exact heads
      · rw [same]
        exact hv
  case apart =>
    intro u w hu hw hscope
    rcases alive u hu with rfl | ⟨hus, husame⟩
    · rcases alive w hw with rfl | ⟨hws, hwsame⟩
      · rfl
      · rw [newest, hwsame] at hscope
        exact absurd hscope.symm (scope_ne w hws)
    · rcases alive w hw with rfl | ⟨hws, hwsame⟩
      · rw [newest, husame] at hscope
        exact absurd hscope (scope_ne u hus)
      · rw [husame, hwsame] at hscope
        exact h.apart u w hus hws hscope
  case waiting =>
    intro job hj
    obtain ⟨ha, same⟩ := h.waiting job hj
    have kept : t.unit job.unit = s.unit job.unit :=
      (unit _).trans (if_neg (Nat.ne_of_lt (index_lt_of_isAlive ha)))
    rw [isAlive, Session.job, kept]
    exact ⟨ha, same⟩

theorem bookkeeping (h : Coherent s) (hs : Bookkeeping s t) : Coherent t := by
  have still : Still (fun _ => False) s t := .of_bookkeeping hs
  exact h.still still

theorem moduleScopeOf_eq {e : EntryId} {c : ScopeId}
    (h : (s.form (s.entry e).module).module? = some ⟨e, c⟩) : s.moduleScopeOf e = c := by
  cases hf : s.form (s.entry e).module <;> rw [hf] at h <;> cases h
  rw [moduleScopeOf, hf]

/-- A new tree keeps a session coherent, and the units of the old one are never run again. -/
theorem replaceTree (h : Coherent s) {e : EntryId} (inRange : e.index < s.entries.size)
    (tree : Option Tree) :
    Coherent (after (replaceTree e tree) s) ∧
      ∀ u, u.index < s.units.size → ¬ (after (replaceTree e tree) s).RunsIn e u := by
  obtain ⟨r, ht, ends⟩ := after_replaceTree e tree s
  have numbered : Coherent { s with nextNode := (s.numbered tree).2 } :=
    h.of_eq rfl rfl rfl rfl h.waiting
  obtain ⟨hr, idle⟩ := numbered.retires
    (fun entry => { entry with tree := (s.numbered tree).1, unit := none })
    (fun _ => rfl) (fun _ => rfl) (fun _ => rfl) (fun _ h => h) (.inl rfl) ht
  let cleared := r.withoutNodeValues (r.moduleScopeOf e)
  have still : Still (fun _ => True) r cleared := .of_setScope rfl fun _ hn => absurd trivial hn
  have hc : Coherent cleared := hr.still still
  have idle : ∀ u, ¬ cleared.RunsIn e u := idle
  cases hn : (s.numbered tree).1 with
  | none =>
    rw [hn] at ends
    rw [ends]
    exact ⟨hc, fun u _ => idle u⟩
  | some new =>
    rw [hn] at ends
    rw [ends]
    have size : cleared.entries.size = s.entries.size := by
      have same : r.entries.size = _ := ht.entries
      rw [show cleared.entries.size = r.entries.size from rfl, same]
      simp [withTree]
    have inRange' : e.index < cleared.entries.size := by rwa [size]
    obtain ⟨c, hm⟩ := hc.modules e inRange'
    have scope : r.moduleScopeOf e = c := moduleScopeOf_eq hm
    have current : (cleared.entry e).tree = some new := by
      have start : (s.withTree e (some new) (s.numbered tree).2).entry e =
          { s.entry e with tree := some new, unit := none } := by
        exact (entry_modify { s with nextNode := (s.numbered tree).2 } e e _).trans
          (if_pos ⟨rfl, inRange⟩)
      rw [hn] at ht
      have look := ht.entry e
      rw [start] at look
      rw [show cleared.entry e = r.entry e from rfl, look]
      split <;> rfl
    have headed := hc.withHead inRange' hm current idle
    rw [← scope] at headed
    refine ⟨headed, ?_⟩
    rintro u hu ⟨ha, he⟩
    have units : cleared.units.size = s.units.size := ht.units
    have old : (cleared.withHead e (r.moduleScopeOf e) new.toBody).unit u = cleared.unit u :=
      (unit_withHead _ _ _ _ _).trans (if_neg (by rw [units]; exact Nat.ne_of_lt hu))
    rw [isAlive, old] at ha
    rw [old] at he
    exact idle u ⟨ha, he⟩

/-- Removing a module keeps a session coherent, and none of its units is ever run again. -/
theorem removeModule (h : Coherent s) (e : EntryId) :
    Coherent (after (removeModule (some e)) s) ∧
      ∀ u, ¬ (after (Session.removeModule (some e)) s).RunsIn e u := by
  rcases after_removeModule e s with ⟨gone, ends⟩ | ⟨b, r, hb, ht, close⟩
  · rw [ends]
    refine ⟨h, fun u hu => ?_⟩
    rw [(h.placed u e hu.1 hu.2).present] at gone
    cases gone
  · obtain ⟨hr, none⟩ := (h.bookkeeping hb).retires
      (fun entry => { entry with removed := true, unit := none })
      (fun _ => rfl) (fun _ => rfl) (fun _ => rfl) (fun _ _ => rfl) (.inr fun _ => rfl) ht
    have cleared : Still (fun _ => False) r (after (clearModule (s.entry e).module) r) := .clearModule _
    have closed := cleared.trans (.of_bookkeeping close)
    refine ⟨hr.still closed, fun u hu => none u ?_⟩
    rw [RunsIn, ← closed.isAlive, ← closed.unit]
    exact hu

/-- In a coherent session there is nothing to let go of on the queue. -/
theorem releaseRetired (h : Coherent s) : Coherent (after releaseRetired s) := by
  obtain ⟨liveUnits, watchers, metrics, ends⟩ := after_releaseRetired s
  rw [ends]
  exact h.of_eq rfl rfl rfl rfl fun job hj => h.waiting job (WorkQueue.mem_keepAlive.1 hj).1

/-- Taking jobs off the queue keeps a session coherent. -/
theorem withQueue (h : Coherent s) {queue : WorkQueue} (hq : ∀ job ∈ queue.jobs, job ∈ s.queue.jobs) :
    Coherent { s with queue } :=
  h.of_eq rfl rfl rfl rfl fun job hj => h.waiting job (hq job hj)

end Coherent

end Typeflow.Session
