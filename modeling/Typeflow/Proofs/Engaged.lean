import Typeflow.Proofs.Definitions

/-! The unit of a definition that still has its body runs that body, and is retired just when the module
is removed. -/
namespace Typeflow.Session

/-- Modules keep track of units of their own only, and definitions have units that run their bodies. -/
structure Engaged (s : Session) : Prop where
  tracked : ∀ e, ∀ u ∈ (s.entry e).units, u.index < s.units.size ∧ (s.unit u).entry = some e
  unit : ∀ v e body c u, (s.form v).code? = some ⟨some e, some body, c, some u⟩ →
    u.index < s.units.size ∧ s.unit u = ⟨some e, c, body, (s.entry e).removed⟩

namespace Engaged

variable {s t : Session}

/-- Units are the same, and modules keep track of no more than before. -/
theorem of_same (h : Engaged s) (units : t.units = s.units)
    (tracked : ∀ e, ∀ u ∈ (t.entry e).units, u ∈ (s.entry e).units)
    (code : ∀ v e body c u, (t.form v).code? = some ⟨some e, some body, c, some u⟩ →
      (s.form v).code? = some ⟨some e, some body, c, some u⟩ ∧
        (t.entry e).removed = (s.entry e).removed) : Engaged t := by
  have unit : ∀ u, t.unit u = s.unit u := fun u => by rw [Session.unit, units]; rfl
  refine ⟨fun e u hu => ?_, fun v e body c u hc => ?_⟩
  · rw [units, unit]
    exact h.tracked e u (tracked e u hu)
  · obtain ⟨old, removed⟩ := code v e body c u hc
    rw [units, unit, removed]
    exact h.unit v e body c u old

theorem of_eq (h : Engaged s) (values : t.values = s.values) (units : t.units = s.units)
    (entries : t.entries = s.entries) : Engaged t := by
  refine h.of_same units (fun e u hu => ?_) fun v e body c u hc => ⟨?_, ?_⟩
  · rwa [Session.entry, entries] at hu
  · rwa [form, value, values] at hc
  · rw [Session.entry, entries]
    rfl

theorem still {keep : NodeId → Prop} (h : Engaged s) (hs : Still keep s t) : Engaged t := by
  refine h.of_same hs.units (fun e u hu => ?_) fun v e body c u hc => ?_
  · obtain ⟨n, hn⟩ := hs.entry e
    rwa [hn] at hu
  · exact ⟨(hs.code v).symm.trans hc, hs.removed e⟩

/-- One more unit was made; its module may keep track of it, and a definition may have got it. -/
theorem grows {made : AnalysisUnit} (h : Engaged s) (size : t.units.size = s.units.size + 1)
    (unit : ∀ u, t.unit u = if u.index = s.units.size then made else s.unit u)
    (tracked : ∀ e, (t.entry e).units = (s.entry e).units ∨
      made.entry = some e ∧ (t.entry e).units = (s.entry e).units ++ [⟨s.units.size⟩])
    (removed : ∀ e, (t.entry e).removed = (s.entry e).removed)
    (code : ∀ v e body c u, (t.form v).code? = some ⟨some e, some body, c, some u⟩ →
      (s.form v).code? = some ⟨some e, some body, c, some u⟩ ∨
        u = ⟨s.units.size⟩ ∧ made = ⟨some e, c, body, (s.entry e).removed⟩) : Engaged t := by
  have old : ∀ u : UnitId, u.index < s.units.size → u.index < t.units.size ∧ t.unit u = s.unit u := by
    intro u hu
    rw [size, unit, if_neg (Nat.ne_of_lt hu)]
    exact ⟨Nat.lt_succ_of_lt hu, rfl⟩
  have newest : s.units.size < t.units.size ∧ t.unit ⟨s.units.size⟩ = made := by
    rw [size, unit, if_pos rfl]
    exact ⟨Nat.lt_succ_self _, rfl⟩
  refine ⟨fun e u hu => ?_, fun v e body c u hc => ?_⟩
  · have earlier : u ∈ (s.entry e).units → u.index < t.units.size ∧ (t.unit u).entry = some e := by
      intro hu
      obtain ⟨range, entry⟩ := h.tracked e u hu
      obtain ⟨range', same⟩ := old u range
      exact ⟨range', by rw [same, entry]⟩
    rcases tracked e with same | ⟨entry, more⟩
    · rw [same] at hu
      exact earlier hu
    · rw [more] at hu
      rcases List.mem_append.1 hu with hu | hu
      · exact earlier hu
      · obtain rfl := List.mem_singleton.1 hu
        exact ⟨newest.1, by rw [newest.2, entry]⟩
  · rw [removed]
    rcases code v e body c u hc with before | ⟨rfl, runs⟩
    · obtain ⟨range, runs⟩ := h.unit v e body c u before
      obtain ⟨range', same⟩ := old u range
      exact ⟨range', by rw [same, runs]⟩
    · exact ⟨newest.1, newest.2.trans runs⟩

theorem starts {v : ValueId} {e : EntryId} {body : Body} {scope : ScopeId} (h : Engaged s)
    (hs : Starts v e body scope s t) : Engaged t := by
  refine h.grows hs.units hs.unit (fun f => ?_) (fun f => ?_) fun w f b c u hc => ?_
  · rw [hs.entry]
    split
    · next hf => exact .inr ⟨by rw [hf.1], rfl⟩
    · exact .inl rfl
  · rw [hs.entry]
    split <;> rfl
  · rw [hs.code] at hc
    split at hc
    · cases hc
      exact .inr ⟨rfl, rfl⟩
    · exact .inl hc

theorem defines {kind : ValueKind} {u : UnitId} {body : Body} (h : Engaged s)
    (hs : Defines kind u body s t) : Engaged t := by
  refine h.of_same hs.units (fun e w hw => ?_) fun v e b c w hc => ⟨?_, ?_⟩
  · rw [hs.entry] at hw
    split at hw <;> exact hw
  · by_cases hv : v.index = s.values.size
    · obtain rfl : v = ⟨s.values.size⟩ := ValueId.index_inj.1 hv
      rw [hs.code] at hc
      have none : Option.none = some w := congrArg Code.unit (Option.some.inj hc)
      cases none
    · rwa [hs.form v hv] at hc
  · rw [hs.entry]
    split <;> rfl

theorem step {L : Licence} (h : Engaged s) (hc : Coherent s) (hst : Step L s t) : Engaged t := by
  cases hst.shape hc with
  | still ht => exact h.still ht
  | starts v e body scope place r code hr _ enqueued => exact (h.starts hr).still enqueued
  | defines u body licensed ht => exact h.defines ht

theorem steps {L : Licence} (h : Engaged s) (hs : Sane s) (hl : L.Sound s) (hst : Steps L s t) :
    Engaged t :=
  hs.steps_induct hl hst h fun _ _ sane _ next engaged => engaged.step sane.coherent next

/-- The units of a module are retired when its definitions are cut off or when it is removed. -/
theorem retires (h : Engaged s) (hc : Coherent s) {e : EntryId} (change : Entry → Entry)
    {detaching : Bool} (tracked : ∀ entry, (change entry).units = entry.units)
    (defined : ∀ entry, (change entry).definitions = entry.definitions)
    (fate : detaching = true ∧ (∀ entry, (change entry).removed = entry.removed) ∨
      ∀ entry, (change entry).removed = true)
    (ht : Retires e detaching { s with entries := s.entries.modify e.index change } t) : Engaged t := by
  let r : Session := { s with entries := s.entries.modify e.index change }
  have changed : ∀ f, r.entry f = if f = e ∧ e.index < s.entries.size then change (s.entry f)
      else s.entry f := fun f => entry_modify s e f change
  have unitsOf : ∀ f, (r.entry f).units = (s.entry f).units := by
    intro f
    rw [changed]
    split
    · exact tracked _
    · rfl
  have definitionsOf : (r.entry e).definitions = (s.entry e).definitions := by
    rw [changed]
    split
    · exact defined _
    · rfl
  have unit : ∀ u, t.unit u =
      if u ∈ (s.entry e).units then { s.unit u with retired := true } else s.unit u := by
    intro u
    rw [ht.unit, show (Session.entry _ e).units = (r.entry e).units from rfl, unitsOf]
    rfl
  have size : t.units.size = s.units.size := ht.units
  refine ⟨fun f u hu => ?_, fun v f body c u hcode => ?_⟩
  · have mem : u ∈ (s.entry f).units := by
      rw [ht.entry] at hu
      split at hu
      · cases hu
      · rwa [← unitsOf]
    obtain ⟨range, entry⟩ := h.tracked f u mem
    rw [size, unit]
    refine ⟨range, ?_⟩
    split <;> exact entry
  · have kept : ¬ (detaching = true ∧ v ∈ (s.entry e).definitions) ∧
        (s.form v).code? = some ⟨some f, some body, c, some u⟩ := by
      rw [ht.form, show (Session.entry _ e).definitions = (r.entry e).definitions from rfl,
        definitionsOf] at hcode
      split at hcode
      · rw [code?_mapCode] at hcode
        obtain ⟨old, -, cuts⟩ := Option.map_eq_some_iff.1 hcode
        have none : Option.none = some u := congrArg Code.unit cuts
        cases none
      · next hn => exact ⟨hn, hcode⟩
    obtain ⟨whole, old⟩ := kept
    obtain ⟨range, runs⟩ := h.unit v f body c u old
    refine ⟨by rwa [size], ?_⟩
    obtain ⟨g, hg, inRange, rooted⟩ := hc.code v _ old
    obtain rfl : f = g := Option.some.inj hg
    by_cases hf : f = e
    · subst hf
      have removed : (t.entry f).removed = (change (s.entry f)).removed := by
        have look : r.entry f = change (s.entry f) := (changed f).trans (if_pos ⟨rfl, inRange⟩)
        rw [ht.entry, ← look]
        split <;> rfl
      rw [removed]
      cases gone : (s.entry f).removed with
      | true =>
        have always : (change (s.entry f)).removed = true :=
          fate.elim (fun hd => (hd.2 _).trans gone) fun hall => hall _
        rw [gone] at runs
        rw [always, unit, runs]
        split <;> rfl
      | false =>
        rw [gone] at runs
        have alive : s.isAlive u = true := by rw [isAlive, runs]; rfl
        have mem := (hc.placed u f alive (by rw [runs])).tracked
        have always : (change (s.entry f)).removed = true := by
          rcases fate with hd | hall
          · rcases rooted body rfl with out | ⟨defined, -⟩
            · rw [gone] at out
              cases out
            · exact absurd ⟨hd.1, defined⟩ whole
          · exact hall _
        rw [always, unit, if_pos mem, runs]
    · have other : u ∉ (s.entry e).units := by
        intro mem
        have entry := (h.tracked e u mem).2
        rw [runs] at entry
        exact hf (Option.some.inj entry)
      have same : t.entry f = s.entry f :=
        ((ht.entry f).trans (if_neg fun hd => hf hd.1)).trans ((changed f).trans (if_neg fun hd => hf hd.1))
      rw [unit, if_neg other, runs, same]

theorem withHead (h : Engaged s) (e : EntryId) (c : ScopeId) (body : Body) :
    Engaged (s.withHead e c body) := by
  let r := s.withUnit (some e) c body
  have look : ∀ f, (s.withHead e c body).entry f =
      if f = e ∧ e.index < r.entries.size then { r.entry f with unit := some ⟨s.units.size⟩ }
      else r.entry f := fun f => entry_modify r e f _
  have tracked : ∀ f, r.entry f = _ := entry_withUnit s (some e) c body
  refine h.grows (Array.size_push _) (Coherent.unit_withHead s e c body) (fun f => ?_) (fun f => ?_)
    fun v f b d u hc => .inl hc
  · have same : ((s.withHead e c body).entry f).units = (r.entry f).units := by
      rw [look]
      split <;> rfl
    rw [same, tracked]
    split
    · next hf => exact .inr ⟨hf.1, rfl⟩
    · exact .inl rfl
  · obtain ⟨more, hmore, -⟩ := Coherent.entry_withHead s e c body f
    rw [hmore]

theorem withObserver (h : Engaged s) : Engaged s.withObserver :=
  h.grows (Array.size_push _) (unit_withUnit s.withLoose none _ _) (fun _ => .inl rfl) (fun _ => rfl)
    fun _ _ _ _ _ hc => .inl hc

theorem withEntry (h : Engaged s) (hc : Coherent s) (name path : String) :
    Engaged (s.withEntry name path) := by
  have look : ∀ e, (s.withEntry name path).entry e =
      if e.index = s.entries.size then { name, path, module := ⟨s.values.size⟩ } else s.entry e := by
    intro e
    simp only [entry, Session.withEntry, getD_push]
  refine h.of_same rfl (fun e u hu => ?_) fun v e body c u hcode => ?_
  · rw [look] at hu
    split at hu
    · cases hu
    · exact hu
  · have old := (Sheds.withEntry name path).code_of_unit hcode rfl
    obtain ⟨f, hf, inRange, -⟩ := hc.code v _ old
    obtain rfl : e = f := Option.some.inj hf
    exact ⟨old, by rw [look, if_neg (Nat.ne_of_lt inRange)]⟩

theorem replaceTree (h : Engaged s) (hc : Coherent s) (e : EntryId) (tree : Option Tree) :
    Engaged (after (replaceTree e tree) s) := by
  obtain ⟨r, ht, ends⟩ := after_replaceTree e tree s
  let numbered : Session := { s with nextNode := (s.numbered tree).2 }
  have coherent : Coherent numbered := hc.of_eq rfl rfl rfl rfl hc.waiting
  have start : Engaged numbered := h.of_eq rfl rfl rfl
  have retired := start.retires coherent
    (fun entry => { entry with tree := (s.numbered tree).1, unit := none })
    (fun _ => rfl) (fun _ => rfl) (.inl ⟨rfl, fun _ => rfl⟩) ht
  have cleared : Engaged (r.withoutNodeValues (r.moduleScopeOf e)) := retired.of_eq rfl rfl rfl
  rw [ends]
  split
  · exact cleared
  · exact cleared.withHead e _ _

theorem removeModule (h : Engaged s) (hc : Coherent s) (e : EntryId) :
    Engaged (after (removeModule (some e)) s) := by
  rcases after_removeModule e s with ⟨-, ends⟩ | ⟨b, r, hb, ht, close⟩
  · rwa [ends]
  · have retired := (h.of_eq hb.values hb.units hb.entries).retires (hc.bookkeeping hb)
      (fun entry => { entry with removed := true, unit := none })
      (fun _ => rfl) (fun _ => rfl) (.inr fun _ => rfl) ht
    have closed : Still (fun _ => False) r (after (Session.removeModule (some e)) s) :=
      (Still.clearModule _).trans (.of_bookkeeping close)
    exact retired.still closed

/-- Every move keeps units and definitions together. -/
theorem move {es : List Event} (h : Engaged s) (hs : Sane s) (hm : Move s es t) : Engaged t := by
  cases hm with
  | change foreign hst => exact h.steps hs (fun u body hd => (foreign.define u body hd).elim) hst
  | addEntry name path => exact h.withEntry hs.coherent name path
  | observe => exact h.withObserver
  | takeNode => exact h.of_eq rfl rfl rfl
  | replaceTree e tree inRange => exact h.replaceTree hs.coherent e tree
  | removeModule e => exact h.removeModule hs.coherent e
  | release =>
    obtain ⟨liveUnits, watchers, metrics, ends⟩ := after_releaseRetired s
    rw [ends]
    exact h.of_eq rfl rfl rfl
  | pass job queue hp dead => exact h.of_eq rfl rfl rfl
  | turn job queue hp alive =>
    have begun : Engaged (s.begun queue job.unit) := h.of_eq rfl rfl rfl
    have start := hs.begun hp
    exact begun.steps start (start.licence_sound alive) (steps_runBody job.unit _)
  | drop => exact h.of_eq rfl rfl rfl

theorem moves {es : List Event} (h : Engaged s) (hs : Sane s) (hm : Moves s es t) : Engaged t :=
  hs.moves_induct (P := fun _ t => Engaged t) hm h fun _ _ _ _ sane last engaged => engaged.move sane last

end Engaged

end Typeflow.Session
