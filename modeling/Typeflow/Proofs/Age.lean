import Typeflow.Proofs.Sane

/-! Units keep what they run all their life; those that are retired stay so, and so do modules that are
removed. -/
namespace Typeflow.Session

/-- Nothing that is gone has come back, and units still run the same bodies in the same scopes. -/
structure Ages (s t : Session) : Prop where
  units : s.units.size ≤ t.units.size
  unit : ∀ u, u.index < s.units.size →
    t.unit u = s.unit u ∨ t.unit u = { s.unit u with retired := true }
  removed : ∀ e, (s.entry e).removed = true → (t.entry e).removed = true

namespace Ages

variable {s t r : Session}

theorem refl (s : Session) : Ages s s := ⟨Nat.le_refl _, fun _ _ => .inl rfl, fun _ h => h⟩

theorem trans (h : Ages s t) (g : Ages t r) : Ages s r where
  units := Nat.le_trans h.units g.units
  unit u hu := by
    rcases g.unit u (Nat.lt_of_lt_of_le hu h.units) with hg | hg <;> rcases h.unit u hu with hh | hh <;>
      rw [hg, hh]
    · exact .inl rfl
    all_goals exact .inr rfl
  removed e he := g.removed e (h.removed e he)

theorem entry (h : Ages s t) {u : UnitId} (hu : u.index < s.units.size) :
    (t.unit u).entry = (s.unit u).entry := by
  rcases h.unit u hu with hh | hh <;> rw [hh]

theorem scope (h : Ages s t) {u : UnitId} (hu : u.index < s.units.size) :
    (t.unit u).scope = (s.unit u).scope := by
  rcases h.unit u hu with hh | hh <;> rw [hh]

/-- A unit that may still run might have run before. -/
theorem wasAlive (h : Ages s t) {u : UnitId} (hu : u.index < s.units.size) (ha : t.isAlive u = true) :
    s.isAlive u = true := by
  rcases h.unit u hu with hh | hh <;> rw [isAlive, hh] at ha
  · exact ha
  · cases ha

theorem of_same (units : t.units = s.units)
    (removed : ∀ e, (s.entry e).removed = true → (t.entry e).removed = true) : Ages s t :=
  ⟨Nat.le_of_eq (by rw [units]), fun u _ => .inl (by rw [Session.unit, units]; rfl), removed⟩

private theorem of_entries (units : t.units = s.units) (entries : t.entries = s.entries) : Ages s t :=
  of_same units fun e he => by rwa [Session.entry, entries]

theorem of_still {keep : NodeId → Prop} (h : Still keep s t) : Ages s t :=
  of_same h.units fun e he => by rwa [h.removed]

theorem of_bookkeeping (h : Bookkeeping s t) : Ages s t := of_entries h.units h.entries

theorem of_step {L : Licence} (hc : Coherent s) (h : Step L s t) : Ages s t := by
  cases h.shape hc with
  | still ht => exact of_still ht
  | starts v e body scope place r code hr _ enqueued =>
    refine .trans ⟨by rw [hr.units]; exact Nat.le_succ _, fun u hu => .inl ?_, fun f hf => ?_⟩
      (of_still enqueued)
    · rw [hr.unit, if_neg (Nat.ne_of_lt hu)]
    · rw [hr.entry]
      split <;> exact hf
  | defines u body licensed ht =>
    refine of_same ht.units fun f hf => ?_
    rw [ht.entry]
    split <;> exact hf

/-- Steps retire no unit. -/
theorem unit_of_step {L : Licence} (hc : Coherent s) (h : Step L s t) {u : UnitId}
    (hu : u.index < s.units.size) : t.unit u = s.unit u := by
  cases h.shape hc with
  | still ht =>
    rw [Session.unit, ht.units]
    rfl
  | starts v e body scope place r code hr _ enqueued =>
    rw [Session.unit, enqueued.units, ← Session.unit, hr.unit, if_neg (Nat.ne_of_lt hu)]
  | defines w body licensed ht =>
    rw [Session.unit, ht.units]
    rfl

theorem of_steps {L : Licence} (hs : Sane s) (hl : L.Sound s) (h : Steps L s t) : Ages s t :=
  hs.steps_induct hl h (.refl s) fun _ _ sane _ next ages => ages.trans (of_step sane.coherent next)

theorem unit_of_steps {L : Licence} (hs : Sane s) (hl : L.Sound s) (h : Steps L s t) {u : UnitId}
    (hu : u.index < s.units.size) : t.unit u = s.unit u := by
  have both : Ages s t ∧ t.unit u = s.unit u :=
    hs.steps_induct (P := fun t => Ages s t ∧ t.unit u = s.unit u) hl h ⟨.refl s, rfl⟩
      fun _ _ sane _ next ⟨ages, same⟩ => ⟨ages.trans (.of_step sane.coherent next),
        (unit_of_step sane.coherent next (Nat.lt_of_lt_of_le hu ages.units)).trans same⟩
  exact both.2

theorem of_retires {e : EntryId} {detaching : Bool} (h : Retires e detaching s t) : Ages s t where
  units := Nat.le_of_eq h.units.symm
  unit u _ := by
    rw [h.unit]
    split
    · exact .inr rfl
    · exact .inl rfl
  removed f hf := by
    rw [h.entry]
    split <;> exact hf

theorem of_change (e : EntryId) (change : Entry → Entry) (units : t.units = s.units)
    (entries : t.entries = s.entries.modify e.index change)
    (stays : ∀ entry, entry.removed = true → (change entry).removed = true) : Ages s t := by
  refine of_same units fun f hf => ?_
  have look : t.entry f = if f = e ∧ e.index < s.entries.size then change (s.entry f) else s.entry f := by
    rw [Session.entry, entries]
    exact entry_modify s e f change
  rw [look]
  split
  · exact stays _ hf
  · exact hf

theorem withHead (s : Session) (e : EntryId) (c : ScopeId) (body : Body) : Ages s (s.withHead e c body) where
  units := by
    have size : (s.withHead e c body).units.size = s.units.size + 1 := Array.size_push _
    rw [size]
    exact Nat.le_succ _
  unit u hu := .inl (by rw [Coherent.unit_withHead, if_neg (Nat.ne_of_lt hu)])
  removed f hf := by
    obtain ⟨more, hm, -⟩ := Coherent.entry_withHead s e c body f
    rw [hm]
    exact hf

theorem replaceTree (e : EntryId) (tree : Option Tree) (s : Session) :
    Ages s (after (replaceTree e tree) s) := by
  obtain ⟨r, ht, ends⟩ := after_replaceTree e tree s
  have changed : Ages s (s.withTree e (s.numbered tree).1 (s.numbered tree).2) :=
    of_change e (fun entry => { entry with tree := (s.numbered tree).1, unit := none }) rfl rfl
      fun _ h => h
  have cleared : Ages r (r.withoutNodeValues (r.moduleScopeOf e)) := of_entries rfl rfl
  have first := (changed.trans (of_retires ht)).trans cleared
  rw [ends]
  split
  · exact first
  · exact first.trans (withHead _ e _ _)

theorem removeModule (e : EntryId) (s : Session) : Ages s (after (removeModule (some e)) s) := by
  rcases after_removeModule e s with ⟨-, ends⟩ | ⟨b, r, hb, ht, close⟩
  · rw [ends]
    exact .refl s
  · have marked : Ages b (b.withoutEntry e) :=
      of_change e (fun entry => { entry with removed := true, unit := none }) rfl rfl fun _ _ => rfl
    have cleared : Still (fun _ => False) r (after (clearModule (s.entry e).module) r) := .clearModule _
    exact (((of_bookkeeping hb).trans marked).trans (of_retires ht)).trans
      ((of_still cleared).trans (of_bookkeeping close))

/-- No move brings anything back. -/
theorem of_move {es : List Event} (hs : Sane s) (h : Move s es t) : Ages s t := by
  cases h with
  | change foreign hst => exact of_steps hs (fun u body hd => (foreign.define u body hd).elim) hst
  | addEntry name path =>
    refine of_same rfl fun f hf => ?_
    have inRange : f.index < s.entries.size := Nat.lt_of_not_le fun h => by
      rw [entry_of_le h] at hf
      cases hf
    simp only [Session.entry, withEntry, getD_push, Nat.ne_of_lt inRange, if_false]
    exact hf
  | observe =>
    refine ⟨?_, fun u hu => .inl ?_, fun _ hf => hf⟩
    · have size : s.withObserver.units.size = s.units.size + 1 := Array.size_push _
      rw [size]
      exact Nat.le_succ _
    · exact (unit_withUnit s.withLoose none _ _ u).trans (if_neg (Nat.ne_of_lt hu))
  | takeNode => exact of_entries rfl rfl
  | replaceTree e tree inRange => exact replaceTree e tree s
  | removeModule e => exact removeModule e s
  | release =>
    obtain ⟨liveUnits, watchers, metrics, ends⟩ := after_releaseRetired s
    rw [ends]
    exact of_entries rfl rfl
  | pass job queue hp dead => exact of_entries rfl rfl
  | turn job queue hp alive =>
    have start := hs.begun hp
    exact (of_entries rfl rfl : Ages s (s.begun queue job.unit)).trans
      (of_steps start (start.licence_sound alive) (steps_runBody job.unit _))
  | drop => exact of_entries rfl rfl

/-- Nothing comes back in a whole life. -/
theorem of_moves {es : List Event} (hs : Sane s) (h : Moves s es t) : Ages s t :=
  hs.moves_induct (P := fun _ t => Ages s t) h (.refl s) fun _ _ _ _ sane last ages =>
    ages.trans (of_move sane last)

end Ages

/-- The session at the beginning of a turn is between the first and the last of a life. -/
theorem Moves.turn_begins {s t : Session} {es : List Event} (h : Sane s) (hm : Moves s es t)
    {turn : Turn} (ran : .ran turn ∈ es) :
    Sane turn.before ∧ turn.before.isAlive turn.unit = true ∧ Ages s turn.before ∧
      Ages turn.before t := by
  obtain ⟨pre, post, rfl⟩ := List.append_of_mem ran
  obtain ⟨r, q, earlier, now, later⟩ := hm.split rfl
  obtain ⟨job, queue, hp, alive, rfl, rfl⟩ := now.of_ran
  have start : Sane (r.begun queue job.unit) := (h.moves earlier).begun hp
  have sound := start.licence_sound alive
  have steps := steps_runBody job.unit (r.begun queue job.unit)
  refine ⟨start, alive, (Ages.of_moves h earlier).trans (.of_entries rfl rfl), ?_⟩
  exact (Ages.of_steps start sound steps).trans (.of_moves (start.steps sound steps).1 later)

end Typeflow.Session
