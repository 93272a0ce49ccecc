import Typeflow.Proofs.Registry.Manage
import Typeflow.Proofs.Registry.Validity

/-! Units that watch the name of a module. They watch it until they are retired or a module of the name is
added, which queues them. -/
namespace Typeflow

/-- The values of a name after a change of each name's values. -/
theorem NameMap.find?_filterMap {α β : Type} (f : String → α → Option β) (m : NameMap α) {name : String}
    {a : α} {b : β} (ha : m.find? name = some a) (hb : f name a = some b) :
    (m.filterMap f).find? name = some b := by
  obtain ⟨pairs⟩ := m
  change lookupPair name pairs = some a at ha
  change lookupPair name (pairs.filterMap fun pair => (f pair.1 pair.2).map (pair.1, ·)) = some b
  induction pairs with
  | nil => cases ha
  | cons pair rest ih =>
    obtain ⟨key, value⟩ := pair
    rw [lookupPair] at ha
    rw [List.filterMap_cons]
    split at ha
    · next same =>
      subst same
      cases ha
      simp [hb, lookupPair]
    · next other =>
      cases hf : f key value with
      | none => simpa [hf] using ih ha
      | some kept => simpa [hf, lookupPair, other] using ih ha

namespace Session

variable {s t q : Session} {u : UnitId} {name : String}

/-- The unit is to be run again when a module of the name appears. -/
def Watches (s : Session) (u : UnitId) (name : String) : Prop := u ∈ s.watchers.findD name []

/-- Units keep what they run and watch what they watched, unless they are retired. -/
structure Watchful (s t : Session) : Prop where
  size : s.units.size ≤ t.units.size
  unit : ∀ u : UnitId, u.index < s.units.size →
    t.unit u = s.unit u ∨ t.unit u = { s.unit u with retired := true }
  watches : ∀ u name, u.index < s.units.size → t.isAlive u = true → s.Watches u name → t.Watches u name

namespace Watchful

theorem alive (h : Watchful s t) (hu : u.index < s.units.size) (ha : t.isAlive u = true) :
    s.isAlive u = true := by
  rcases h.unit u hu with same | retired
  · rwa [isAlive, same] at ha
  · rw [isAlive, retired] at ha
    cases ha

theorem of_units (size : s.units.size ≤ t.units.size)
    (unit : ∀ u : UnitId, u.index < s.units.size → t.unit u = s.unit u)
    (watchers : t.watchers = s.watchers) : Watchful s t where
  size := size
  unit u hu := .inl (unit u hu)
  watches u name _ _ h := by rwa [Watches, watchers]

theorem of_same (units : t.units = s.units) (watchers : t.watchers = s.watchers) : Watchful s t :=
  of_units (Nat.le_of_eq (congrArg Array.size units).symm)
    (fun u _ => by rw [Session.unit, Session.unit, units]) watchers

theorem refl (s : Session) : Watchful s s := of_same rfl rfl

theorem trans (h : Watchful s t) (g : Watchful t q) : Watchful s q where
  size := Nat.le_trans h.size g.size
  unit u hu := by
    have first := h.unit u hu
    have second := g.unit u (Nat.lt_of_lt_of_le hu h.size)
    rcases first with first | first <;> rcases second with second | second <;> rw [second, first]
    · exact .inl rfl
    all_goals exact .inr rfl
  watches u name hu ha hw := by
    have there := Nat.lt_of_lt_of_le hu h.size
    exact g.watches u name there ha (h.watches u name hu (g.alive there ha) hw)

theorem of_all {T : Session → Session → Prop} (h : ∀ s t, T s t → Watchful s t)
    (steps : Relation.ReflTransGen T s t) : Watchful s t := by
  induction steps with
  | refl => exact .refl s
  | tail _ step ih => exact ih.trans (h _ _ step)

theorem of_within {α : Type} {m : Analysis α} {Q : α → Prop} (h : Within .all Watchful m Q) (s : Session) :
    Watchful s (after m s) := h.whole refl trans s

theorem of_reserves (b : Reserves s t) : Watchful s t := of_units b.size b.unit b.watchers

theorem of_change {R : Realm} (c : Change R s t) : Watchful s t := by
  cases c with
  | beside b => exact of_reserves b.toReserves
  | watch name v =>
    refine ⟨Nat.le_refl _, fun _ _ => .inl rfl, fun u other _ _ hw => ?_⟩
    rw [Watches, NameMap.findD] at hw ⊢
    change u ∈ ((s.watchers.insert name _).find? other).getD []
    rw [NameMap.find?_insert]
    split
    · next same =>
      subst same
      exact Variable.mem_addOnce.2 (.inr hw)
    · exact hw
  | _ => exact of_same rfl rfl

theorem spans : Spans Watchful where
  refl := refl
  trans := trans
  change := of_change
  lookup c := c.through refl trans of_change of_reserves
  names _ _ := of_same rfl rfl
  replace _ _ _ _ := of_same rfl rfl
  wrap _ _ _ _ := of_same rfl rfl
  ref _ _ _ := of_same rfl rfl

theorem refreshes : Refreshes Watchful where
  furnish := spans.furnish
  log _ _ := of_same rfl rfl
  tell _ _ := of_same rfl rfl
  clear := spans.clearing

theorem of_touch {L : Licence} {R : Realm} (touch : Touch L R s t) : Watchful s t := spans.touch touch

theorem retire (v : UnitId) (s : Session) : Watchful s (after (retire v) s) where
  size := Nat.le_of_eq Array.size_modify.symm
  unit u _ := by
    have look := unit_modify s v u fun unit => { unit with retired := true }
    split at look
    · exact .inr look
    · exact .inl look
  watches _ _ _ _ h := h

/-- Units that may run still watch after retired ones are let go. -/
theorem release (s : Session) : Watchful s (after releaseRetired s) := by
  obtain ⟨_, ends⟩ := releaseRetired_lets_go s
  have watchers : (after releaseRetired s).watchers = s.liveWatchers := by rw [ends]
  have units : (after releaseRetired s).units = s.units := by rw [ends]
  have unit : ∀ u, (after releaseRetired s).unit u = s.unit u := fun u => by
    rw [Session.unit, Session.unit, units]
  refine ⟨Nat.le_of_eq (congrArg Array.size units).symm, fun u _ => .inl (unit u), ?_⟩
  intro u name _ ha hw
  rw [isAlive, unit, ← isAlive] at ha
  rw [Watches, NameMap.findD] at hw ⊢
  cases hf : s.watchers.find? name with
  | none =>
    rw [hf] at hw
    cases hw
  | some units =>
    rw [hf, Option.getD_some] at hw
    have kept : u ∈ units.filter s.isAlive := List.mem_filter.2 ⟨hw, ha⟩
    have some_ : (units.filter s.isAlive).isEmpty = false := by
      rw [List.isEmpty_eq_false_iff]
      exact List.ne_nil_of_mem kept
    rw [watchers, liveWatchers, NameMap.find?_filterMap _ _ hf (b := units.filter s.isAlive)]
    · exact kept
    · simp only [some_, Bool.false_eq_true, if_false]

theorem covers : Operation.Covers Watchful where
  change := of_change
  retire := retire
  release := release
  touch := of_touch

theorem of_evaluates {o : Operation} (h : o.evaluates) (s : Session) : Watchful s (after o.run s) :=
  of_within (covers.run o h fun _ _ _ _ => .of_same rfl rfl) s

theorem of_roams {L : Licence} {α : Type} {m : Analysis α} {Q : α → Prop} (h : Roams L .all m Q)
    (s : Session) : Watchful s (after m s) :=
  of_all (fun _ _ => of_touch) (h s (Realm.closed_all s)).1

/-- What binds names or forgets them has nothing to do with units. -/
theorem relabel (h : Relabels s t) : Watchful s t := by
  rw [h]
  exact of_same rfl rfl

theorem manages : Manages Watchful where
  toRefreshes := refreshes
  toEdits := covers.toEdits
  relabel := relabel

theorem reload (s : Session) : Watchful s (after reload s) := by
  have caches : Watchful (after Session.resetModules s) (after clearCaches (after Session.resetModules s)) :=
    of_same rfl rfl
  rw [after_reload_equips]
  exact ((of_within manages.resetModules s).trans caches).trans (of_within refreshes.reloaded _)

/-- A module is made and gets its name. -/
theorem bindModule (s : Session) (name path : String) (m : ValueId) :
    Watchful s (after (bindModule name m) (s.withListed name path)) := by
  have listed : Watchful s (s.withListed name path) := by
    unfold withListed
    split <;> exact of_same rfl rfl
  exact listed.trans (of_within (manages.bindModule name m) _)

end Watchful

/-- Those who watch a name are queued and watch it no longer. -/
theorem wake_run (name : String) (s : Session) :
    ∃ q, Queues (s.watchers.findD name []) { s with watchers := s.watchers.erase name } q ∧
      (after (wake name) s).units = q.units ∧ (after (wake name) s).queue = q.queue ∧
      (after (wake name) s).watchers = q.watchers := by
  let us := s.watchers.findD name []
  let woken : Session := { s with watchers := s.watchers.erase name }
  have run : after (wake name) s =
      after (announce name) (after (us.forM fun u => enqueue u .back) woken) :=
    after_seq (.forM (fun u => total_enqueue u .back) us) woken
  have queues := queues_forM us woken
  rw [run]
  generalize after (us.forM fun u => enqueue u .back) woken = q at queues
  exact ⟨q, queues, rfl, rfl, rfl⟩

/-- Those who watch the name of a module that is added are queued, the others go on watching. -/
theorem watches_addModule {other path : String} (hu : u.index < s.units.size)
    (alive : (after (addModule other path) s).isAlive u = true) (hw : s.Watches u name) :
    if other = name ∧ name ≠ "" then
      (after (addModule other path) s).queue.holds ((after (addModule other path) s).job u) = true
    else (after (addModule other path) s).Watches u name := by
  rw [after_addModule] at alive ⊢
  by_cases empty : other.isEmpty = true
  · have listed : (s.withListed other path).watchers = s.watchers := by
      unfold withListed
      split <;> rfl
    have still : ¬ (other = name ∧ name ≠ "") := by
      rintro ⟨rfl, named⟩
      exact named (String.isEmpty_iff.1 empty)
    rw [if_neg still, if_pos empty]
    change u ∈ (s.withListed other path).watchers.findD name []
    rwa [listed]
  · rw [if_neg empty] at alive ⊢
    have bound := Watchful.bindModule s other path ⟨s.values.size⟩
    generalize after (bindModule other ⟨s.values.size⟩) (s.withListed other path) = r at alive bound
    obtain ⟨q, queues, units, queue, watchers⟩ := wake_run other r
    have same : ∀ v, (after (wake other) r).unit v = q.unit v := fun v => by
      rw [Session.unit, Session.unit, units]
    have there : r.isAlive u = true := by
      rw [isAlive, same, ← isAlive, queues.isAlive] at alive
      exact alive
    have watched : r.Watches u name := bound.watches u name hu there hw
    have named : other ≠ "" := fun eq => empty (String.isEmpty_iff.2 eq)
    by_cases eq : other = name
    · subst eq
      rw [if_pos ⟨rfl, named⟩, queue, Session.job, same, ← Session.job, queues.job]
      exact queues.held u watched there
    · have kept : (r.watchers.erase other).find? name = r.watchers.find? name := by
        rw [NameMap.find?_erase, if_neg fun back => eq back.symm]
      rw [if_neg fun both => eq both.1, Watches, watchers, queues.frame, NameMap.findD]
      change u ∈ ((r.watchers.erase other).find? name).getD []
      rw [kept]
      exact watched

end Session

end Typeflow
