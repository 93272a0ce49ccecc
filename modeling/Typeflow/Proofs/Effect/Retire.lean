import Typeflow.Proofs.Effect.Define
import Typeflow.Session.Probe

/-! What adding modules, and letting go of the units of a module, does. -/
namespace Typeflow.Session

theorem unit_modify (s : Session) (u w : UnitId) (change : AnalysisUnit → AnalysisUnit) :
    ({ s with units := s.units.modify u.index change } : Session).unit w =
      if w = u ∧ u.index < s.units.size then change (s.unit w) else s.unit w := by
  simp only [Session.unit, getD_modify, UnitId.index_inj]

theorem unit_of_le {s : Session} {u : UnitId} (h : s.units.size ≤ u.index) :
    s.unit u = ⟨none, ⟨0⟩, default, true⟩ := by
  simp [Session.unit, Array.getElem?_eq_none h]

theorem total_retire (u : UnitId) : Total (retire u) := .modify _

theorem unit_retire (u w : UnitId) (s : Session) :
    (after (retire u) s).unit w = if w = u then { s.unit w with retired := true } else s.unit w := by
  refine (unit_modify s u w fun unit => { unit with retired := true }).trans ?_
  by_cases hw : w = u
  · subst hw
    by_cases hs : w.index < s.units.size
    · simp only [hs, and_self, if_true]
    · rw [if_neg fun h => hs h.2, if_pos rfl, unit_of_le (Nat.le_of_not_lt hs)]
  · rw [if_neg fun h => hw h.1, if_neg hw]

/-- Retiring units changes nothing but these units. -/
theorem after_retire_forM (us : List UnitId) (s : Session) :
    ∃ units, after (us.forM retire) s = { s with units } ∧ units.size = s.units.size ∧
      ∀ w, ({ s with units } : Session).unit w =
        if w ∈ us then { s.unit w with retired := true } else s.unit w := by
  induction us generalizing s with
  | nil => exact ⟨s.units, rfl, rfl, fun w => by rw [if_neg List.not_mem_nil]⟩
  | cons u rest ih =>
    let t : Session := after (retire u) s
    rw [after_forM_cons total_retire]
    obtain ⟨units, ends, size, look⟩ := ih t
    refine ⟨units, ends, ?_, fun w => (look w).trans ?_⟩
    · rw [size]
      simp [t, retire]
    · rw [show t.unit w = _ from unit_retire u w s]
      by_cases hr : w ∈ rest <;> by_cases hu : w = u <;> simp [hr, hu]

def cut (code : Code) : Code := { code with body := none, unit := none }

theorem total_detach (v : ValueId) : Total (detach v) := .modify _

private theorem kept_withCode (s : Session) (v w : ValueId) (change : Code → Code) :
    ((s.withCode v change).value w).kept = (s.value w).kept := by
  rw [withCode, value_setValue]
  split
  · next own => rw [own.1]
  · rfl

private theorem after_detach_forM (vs : List ValueId) (s : Session) :
    ∃ values, after (vs.forM detach) s = { s with values } ∧ values.size = s.values.size ∧
      (∀ w, ({ s with values } : Session).form w =
        if w ∈ vs then (s.form w).mapCode cut else s.form w) ∧
      ∀ w, (({ s with values } : Session).value w).kept = (s.value w).kept := by
  induction vs generalizing s with
  | nil => exact ⟨s.values, rfl, rfl, fun w => by rw [if_neg List.not_mem_nil], fun _ => rfl⟩
  | cons v rest ih =>
    let t : Session := s.withCode v cut
    rw [after_forM_cons total_detach]
    obtain ⟨values, ends, size, look, kept⟩ := ih t
    refine ⟨values, ends, ?_, fun w => (look w).trans ?_, fun w => (kept w).trans (kept_withCode s v w cut)⟩
    · rw [size]
      simp [t, withCode, setValue]
    · have twice : ((s.form w).mapCode cut).mapCode cut = (s.form w).mapCode cut := by
        cases s.form w <;> rfl
      rw [form_withCode]
      by_cases hr : w ∈ rest <;> by_cases hv : w = v
      · subst hv
        simp [hr, twice]
      · simp [hr, hv]
      · subst hv
        simp [hr]
      · simp [hr, hv]

theorem total_discardRetired : Total discardRetired := .modifyGet _

/-- Letting go of retired units takes their jobs off the queue and their names from the watchers, and counts
nothing else. -/
theorem releaseRetired_counts (s : Session) :
    ∃ metrics, (metrics = s.metrics ∨ ∃ n, metrics = s.metrics.count "units_released" n) ∧
      after releaseRetired s =
        { s with
          liveUnits := s.liveUnits.filter s.isAlive
          watchers := s.liveWatchers
          metrics
          queue := s.queue.keepAlive s.isAlive } := by
  let live := s.liveUnits.filter s.isAlive
  let released := s.liveUnits.length - live.length
  let t : Session := { s with liveUnits := live, watchers := s.liveWatchers }
  let r : Session := { t with queue := s.queue.keepAlive s.isAlive }
  have run : releaseRetired s =
      (discardRetired >>= fun _ =>
        if released ≠ 0 then count "units_released" released >>= fun _ => pure released
        else pure released) t := rfl
  have discarded : discardRetired t =
      .ok (t.queue.size - (s.queue.keepAlive s.isAlive).size) r := rfl
  rw [after, run, ← after, after_bind_of_ok discarded]
  split
  · exact ⟨_, .inr ⟨_, rfl⟩, rfl⟩
  · exact ⟨_, .inl rfl, rfl⟩

theorem releaseRetired_lets_go (s : Session) :
    ∃ metrics, after releaseRetired s =
      { s with
        liveUnits := s.liveUnits.filter s.isAlive
        watchers := s.liveWatchers
        metrics
        queue := s.queue.keepAlive s.isAlive } := by
  obtain ⟨metrics, -, ends⟩ := releaseRetired_counts s
  exact ⟨metrics, ends⟩

theorem after_releaseRetired (s : Session) :
    ∃ liveUnits watchers metrics, after releaseRetired s =
      { s with liveUnits, watchers, metrics, queue := s.queue.keepAlive s.isAlive } := by
  obtain ⟨metrics, ends⟩ := releaseRetired_lets_go s
  exact ⟨_, _, metrics, ends⟩

/-- The units of a module are retired and its definitions forgotten, after being cut off if asked. -/
structure Retires (e : EntryId) (detaching : Bool) (s t : Session) : Prop where
  frame : t = { s with
    values := t.values, units := t.units, entries := t.entries, liveUnits := t.liveUnits,
    watchers := t.watchers, queue := t.queue, metrics := t.metrics }
  values : t.values.size = s.values.size
  form : ∀ v, t.form v =
    if detaching = true ∧ v ∈ (s.entry e).definitions then (s.form v).mapCode cut else s.form v
  units : t.units.size = s.units.size
  unit : ∀ u, t.unit u =
    if u ∈ (s.entry e).units then { s.unit u with retired := true } else s.unit u
  entries : t.entries.size = s.entries.size
  entry : ∀ f, t.entry f =
    if f = e ∧ e.index < s.entries.size then { s.entry f with units := [], definitions := [] }
    else s.entry f
  queue : t.queue = s.queue.keepAlive t.isAlive
  kept : ∀ v, (t.value v).kept = (s.value v).kept

theorem total_releaseRetired : Total releaseRetired := by
  intro s
  let live := s.liveUnits.filter s.isAlive
  let released := s.liveUnits.length - live.length
  have total : Total (discardRetired >>= fun _ =>
      if released ≠ 0 then count "units_released" released >>= fun _ => pure released
      else pure released) :=
    .bind total_discardRetired fun _ => .ite (.bind (.modify _) fun _ => .pure _) (.pure _)
  exact total { s with liveUnits := live, watchers := s.liveWatchers }

private theorem total_retireEntry (e : EntryId) (detaching : Bool) : Total (retireEntry e detaching) := by
  refine .read fun s => .bind (.modify _) fun _ => .bind (.forM total_retire _) fun _ => ?_
  refine .ite (.bind (.forM total_detach _) fun _ => .bind total_releaseRetired fun _ => .pure _) ?_
  exact .bind total_releaseRetired fun _ => .pure _

theorem retires_retireEntry (e : EntryId) (detaching : Bool) (s : Session) :
    Retires e detaching s (after (retireEntry e detaching) s) := by
  let entry := s.entry e
  let forgotten : Session :=
    { s with entries := s.entries.modify e.index fun entry => { entry with units := [], definitions := [] } }
  let rest : Analysis Unit := releaseRetired >>= fun _ => pure ()
  have run : retireEntry e detaching s =
      (entry.units.forM retire >>= fun _ =>
        if detaching = true then entry.definitions.forM detach >>= fun _ => rest else rest) forgotten := rfl
  obtain ⟨units, retired, size, unit⟩ := after_retire_forM entry.units forgotten
  let idle : Session := { forgotten with units }
  have look : ∀ f, forgotten.entry f =
      if f = e ∧ e.index < s.entries.size then { s.entry f with units := [], definitions := [] }
      else s.entry f := fun f => entry_modify s e f _
  have entries : forgotten.entries.size = s.entries.size := by simp [forgotten]
  rw [after, run, ← after, after_seq (.forM total_retire _), retired]
  cases detaching with
  | false =>
    obtain ⟨liveUnits, watchers, metrics, released⟩ := after_releaseRetired idle
    have ends : after (if false = true then entry.definitions.forM detach >>= fun _ => rest else rest) idle =
        after releaseRetired idle := after_ignore releaseRetired idle
    rw [ends, released]
    refine ⟨rfl, rfl, fun v => ?_, size, unit, entries, look, rfl, fun _ => rfl⟩
    rw [if_neg (by simp)]
    rfl
  | true =>
    obtain ⟨values, cuts, count, form, kept⟩ := after_detach_forM entry.definitions idle
    let bare : Session := { idle with values }
    obtain ⟨liveUnits, watchers, metrics, released⟩ := after_releaseRetired bare
    have ends : after (if true = true then entry.definitions.forM detach >>= fun _ => rest else rest) idle =
        after releaseRetired bare := by
      have first : after (entry.definitions.forM detach >>= fun _ => rest) idle =
          after rest (after (entry.definitions.forM detach) idle) := after_seq (.forM total_detach _) idle
      rw [cuts] at first
      exact first.trans (after_ignore releaseRetired bare)
    rw [ends, released]
    refine ⟨rfl, count, fun v => ?_, size, unit, entries, look, rfl, kept⟩
    simp only [true_and]
    exact form v

def withHead (s : Session) (e : EntryId) (scope : ScopeId) (body : Body) : Session :=
  let t := s.withUnit (some e) scope body
  { t with entries := t.entries.modify e.index fun entry => { entry with unit := some ⟨s.units.size⟩ } }

def withoutNodeValues (s : Session) (c : ScopeId) : Session :=
  { s with scopes := s.scopes.setIfInBounds c.index { s.scope c with nodeValues := [] } }

def withTree (s : Session) (e : EntryId) (tree : Option Tree) (nextNode : Nat) : Session :=
  { s with
    nextNode
    entries := s.entries.modify e.index fun entry => { entry with tree, unit := none } }

def numbered (s : Session) (tree : Option Tree) : Option Tree × Nat :=
  match tree with
  | none => (none, s.nextNode)
  | some tree => ((tree.number.run s.nextNode).1, (tree.number.run s.nextNode).2)

/-- A session in which the units of the old tree of a module are retired and the new tree has none yet. -/
def betweenTrees (s : Session) (e : EntryId) (tree : Option Tree) : Session :=
  after (retireEntry e true) (s.withTree e (s.numbered tree).1 (s.numbered tree).2)

/-- The new tree gets its unit after the scope of the module has forgotten the values for nodes. -/
theorem replaceTree_run (e : EntryId) (tree : Option Tree) (s : Session) :
    let r := s.betweenTrees e tree
    replaceTree e tree s =
      .ok () (match (s.numbered tree).1 with
        | none => r.withoutNodeValues (r.moduleScopeOf e)
        | some tree => (r.withoutNodeValues (r.moduleScopeOf e)).withHead e (r.moduleScopeOf e)
            tree.toBody) := by
  let start := s.withTree e (s.numbered tree).1 (s.numbered tree).2
  let r := s.betweenTrees e tree
  let rest (tree : Option Tree) : Analysis Unit := do
    let scope := (← get).moduleScopeOf e
    clearNodeValues scope
    match tree with
    | none => pure ()
    | some tree =>
      let u ← newUnit (some e) scope tree.toBody
      updateEntry e fun entry => { entry with unit := some u }
  have run : replaceTree e tree s = (retireEntry e true >>= fun _ => rest (s.numbered tree).1) start := by
    cases tree <;> rfl
  obtain ⟨⟨⟩, retired⟩ := total_retireEntry e true start
  rw [run, bind_of_ok retired]
  cases (s.numbered tree).1 with
  | none => rfl
  | some tree =>
    have ends : rest (some tree) r =
        (newUnit (some e) (r.moduleScopeOf e) tree.toBody >>= fun u =>
          updateEntry e fun entry => { entry with unit := some u })
          (r.withoutNodeValues (r.moduleScopeOf e)) := rfl
    exact ends.trans (bind_of_ok (newUnit_run _ _ _ _))

/-- The units of the old tree are retired before the new one gets its own. -/
theorem after_replaceTree (e : EntryId) (tree : Option Tree) (s : Session) :
    ∃ r, Retires e true (s.withTree e (s.numbered tree).1 (s.numbered tree).2) r ∧
      after (replaceTree e tree) s =
        match (s.numbered tree).1 with
        | none => r.withoutNodeValues (r.moduleScopeOf e)
        | some tree => (r.withoutNodeValues (r.moduleScopeOf e)).withHead e (r.moduleScopeOf e)
            tree.toBody :=
  ⟨s.betweenTrees e tree, retires_retireEntry e true _, after_of_ok (replaceTree_run e tree s)⟩

def withEntry (s : Session) (name path : String) : Session :=
  { s with
    scopes := s.scopes.push
      { owner := some ⟨s.values.size⟩, cap := s.options.limits.variableTypes }
    values := s.values.push
      { name, description := "module " ++ name, memberType := .module,
        form := .module ⟨⟨s.entries.size⟩, ⟨s.scopes.size⟩⟩ }
    entries := s.entries.push { name, path, module := ⟨s.values.size⟩ } }

/-- A session with one more scope, which belongs to nothing, and a free number taken for a node. -/
def withLoose (s : Session) : Session :=
  { s with scopes := s.scopes.push {}, nextNode := s.nextNode + 1 }

def withObserver (s : Session) : Session :=
  s.withLoose.withUnit none ⟨s.scopes.size⟩ ⟨⟨.module, { id := ⟨s.nextNode⟩ }⟩, []⟩

theorem newObserver_run (s : Session) : newObserver s = .ok ⟨s.units.size⟩ s.withObserver := rfl

theorem Bookkeeping.trans {s t r : Session} (h : Bookkeeping s t) (g : Bookkeeping t r) :
    Bookkeeping s r :=
  ⟨g.values.trans h.values, g.records.trans h.records, g.scopes.trans h.scopes,
    g.units.trans h.units, g.entries.trans h.entries, g.queue.trans h.queue,
    g.liveUnits.trans h.liveUnits, g.nextNode.trans h.nextNode⟩

def Keeps {α : Type} (m : Analysis α) : Prop := Total m ∧ ∀ s, Bookkeeping s (after m s)

namespace Keeps

variable {α β : Type}

theorem pure (a : α) : Keeps (Pure.pure a) := ⟨.pure a, .refl⟩

theorem modify {f : Session → Session} (h : ∀ s, Bookkeeping s (f s)) : Keeps (modify f) :=
  ⟨.modify f, h⟩

theorem bind {m : Analysis α} {f : α → Analysis β} (hm : Keeps m) (hf : ∀ a, Keeps (f a)) :
    Keeps (m >>= f) := by
  refine ⟨.bind hm.1 fun a => (hf a).1, fun s => ?_⟩
  obtain ⟨a, ha⟩ := hm.1 s
  rw [after_bind_of_ok ha]
  exact (hm.2 s).trans ((hf a).2 _)

theorem read {f : Session → Analysis β} (hf : ∀ s, Keeps (f s)) : Keeps (get >>= f) :=
  ⟨.read fun s => (hf s).1, fun s => (hf s).2 s⟩

theorem ite {c : Prop} [Decidable c] {m n : Analysis α} (hm : Keeps m) (hn : Keeps n) :
    Keeps (if c then m else n) := by
  split
  · exact hm
  · exact hn

theorem writeLog (category : LogCategory) (message : String) :
    Keeps (Session.writeLog category message) :=
  modify fun _ => by constructor <;> rfl

theorem count (name : String) (delta : Nat) : Keeps (Session.count name delta) :=
  modify fun _ => by constructor <;> rfl

theorem forgetPath (path : String) (module : ValueId) : Keeps (Session.forgetPath path module) := by
  refine modify fun s => ?_
  split
  · exact {}
  · exact .refl s

theorem removeName (name : String) (expected : Option RefId) :
    Keeps (Session.removeName name expected) := by
  refine read fun s => ?_
  split
  · exact pure _
  · exact ite (pure _) (bind (modify fun _ => by constructor <;> rfl) fun _ => pure _)

theorem forgetName (name : String) (module : ValueId) : Keeps (Session.forgetName name module) := by
  refine ite (pure _) (read fun s => ?_)
  split
  · exact pure _
  · exact read fun _ => ite (bind (removeName _ _) fun _ =>
      modify fun _ => by constructor <;> rfl) (pure _)

end Keeps

theorem total_updateEntry (e : EntryId) (change : Entry → Entry) : Total (updateEntry e change) :=
  .modify _

def withoutEntry (s : Session) (e : EntryId) : Session :=
  { s with entries := s.entries.modify e.index fun entry => { entry with removed := true, unit := none } }

/-- Removing a module again does nothing; the first time its units are retired and it is cleared. -/
theorem after_removeModule (e : EntryId) (s : Session) :
    (s.entry e).removed = true ∧ after (removeModule (some e)) s = s ∨
      ∃ b r, Bookkeeping s b ∧ Retires e false (b.withoutEntry e) r ∧
        Bookkeeping (after (clearModule (s.entry e).module) r) (after (removeModule (some e)) s) := by
  cases hr : (s.entry e).removed with
  | true =>
    refine .inl ⟨rfl, ?_⟩
    have run : removeModule (some e) s = .ok () s := by
      simp only [removeModule, read_run, hr]
      rfl
    exact after_of_ok run
  | false =>
    let forget : Analysis Unit := do
      forgetPath (s.entry e).path (s.entry e).module
      forgetName (s.entry e).name (s.entry e).module
    let close : Analysis Unit := do
      count "modules_removed" 1
      writeLog .modules ("removed " ++ (s.entry e).name)
    have forgets : Keeps forget := .bind (.forgetPath _ _) fun _ => .forgetName _ _
    have closes : Keeps close := .bind (.count _ _) fun _ => .writeLog _ _
    let b := after forget s
    let r := after (retireEntry e false) (b.withoutEntry e)
    refine .inr ⟨b, r, forgets.2 s, retires_retireEntry e false _, ?_⟩
    have run : removeModule (some e) s =
        (forgetPath (s.entry e).path (s.entry e).module >>= fun _ =>
          forgetName (s.entry e).name (s.entry e).module >>= fun _ =>
            (updateEntry e fun entry => { entry with removed := true, unit := none }) >>= fun _ =>
              retireEntry e false >>= fun _ => clearModule (s.entry e).module >>= fun _ => close) s := by
      simp only [removeModule, read_run, hr]
      rfl
    have ends : after (removeModule (some e)) s =
        after close (after (clearModule (s.entry e).module) r) := by
      rw [after, run, ← after, after_seq (Keeps.forgetPath _ _).1, after_seq (Keeps.forgetName _ _).1,
        after_seq (total_updateEntry e _), after_seq (total_retireEntry e false),
        after_seq (total_clearModule _)]
      have both : after forget s = after (forgetName (s.entry e).name (s.entry e).module)
          (after (forgetPath (s.entry e).path (s.entry e).module) s) :=
        after_seq (Keeps.forgetPath _ _).1 s
      rw [← both]
      rfl
    rw [ends]
    exact closes.2 _

end Typeflow.Session
