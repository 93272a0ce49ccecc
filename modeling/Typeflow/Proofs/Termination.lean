import Mathlib.Algebra.Order.BigOperators.Group.Finset
import Mathlib.Data.Finset.Card
import Mathlib.Logic.Function.Basic
import Typeflow.Proofs.Dependence
import Typeflow.Proofs.Sane

/-! Runs of the queue come to an end when the units work on finitely many names with finitely many
values, however they wake each other. -/
namespace Typeflow

/-- How often values of `pool` can still change a set: up to `top`, which nothing changes. -/
def ValueSet.room (pool : Finset ValueId) : ValueSet → Nat
  | top => 0
  | of values => (pool \ values.toList.toFinset).card + 1

theorem ValueSet.room_le (pool : Finset ValueId) (values : ValueSet) :
    values.room pool ≤ pool.card + 1 := by
  cases values with
  | top => exact Nat.zero_le _
  | of values =>
    have : (pool \ values.toList.toFinset).card ≤ pool.card :=
      Finset.card_le_card Finset.sdiff_subset
    simp only [room]
    omega

def ValueSet.Within (pool : Finset ValueId) (values : ValueSet) : Prop :=
  values = top ∨ ∀ v ∈ values.items, v ∈ pool

/-- Values that change a name take from what can still change it. -/
theorem Variable.room_lt_of_grow? {pool : Finset ValueId} {values : ValueSet} {x y : Variable}
    (h : x.grow? values = some y) (within : values.Within pool) :
    y.types.room pool < x.types.room pool := by
  obtain ⟨union, changed⟩ := types_of_grow? h
  rw [union] at changed ⊢
  cases hx : x.types with
  | top =>
    rw [hx] at changed
    exact absurd rfl changed
  | of old =>
    rw [hx] at changed
    cases values with
    | top =>
      have : (ValueSet.of old).union .top x.cap = .top := rfl
      rw [this]
      exact Nat.succ_pos _
    | of new =>
      have split : (ValueSet.of old).union (.of new) x.cap = .top ∨
          (ValueSet.of old).union (.of new) x.cap = .of (old.union new) := by
        simp only [ValueSet.union, ValueSet.capped]
        split
        · exact .inl rfl
        · exact .inr rfl
      rcases split with outgrown | joined
      · rw [outgrown]
        exact Nat.succ_pos _
      · rw [joined] at changed ⊢
        obtain ⟨v, hv, fresh⟩ : ∃ v ∈ new.toList, v ∉ old.toList := by
          by_contra old_has
          have has : ∀ v ∈ new.toList, v ∈ old.toList := by simpa using old_has
          have same : old.union new = old := ValueList.ext_mem fun v =>
            ValueList.mem_union.trans ⟨fun h => h.elim id (has v), .inl⟩
          rw [same] at changed
          exact changed rfl
        have listed : v ∈ pool := (within.resolve_left (by rintro ⟨⟩)) v hv
        have fewer : pool \ (old.union new).toList.toFinset ⊂
            pool \ old.toList.toFinset := by
          refine Finset.ssubset_iff_of_subset (fun w hw => ?_) |>.2 ⟨v, ?_, ?_⟩
          · simp only [Finset.mem_sdiff, List.mem_toFinset, ValueList.mem_union] at hw ⊢
            exact ⟨hw.1, fun hold => hw.2 (.inl hold)⟩
          · simp [listed, fresh]
          · simp [hv]
        have := Finset.card_lt_card fewer
        simp only [ValueSet.room]
        omega

/-- Who reads a name after a unit was added read it before or is that unit. -/
theorem Variable.mem_of_mem_addReader {alive : UnitId → Bool} {reader u : UnitId} {x : Variable}
    (h : u ∈ (x.addReader alive reader).readers) : u ∈ x.readers ∨ u = reader := by
  rcases addReader_cases alive reader x with ⟨-, same⟩ | ⟨-, -, dependents, listed, added⟩
  · rw [same] at h
    exact .inl h
  · have more : u ∈ dependents.listed := by
      rw [added] at h
      split at h
      · exact (mem_readers_sweep.1 h).1
      · exact h
    rw [listed] at more
    simpa using more

namespace Session

/-- The units, the names and the values that an analysis works with. -/
structure World where
  units : Finset UnitId
  vars : Finset VarId
  values : Finset ValueId

namespace World

variable (W : World)

/-- How many units a run takes from a queue of the given length at most. -/
def bound (waiting : Nat) : Nat :=
  waiting + W.units.card + 2 * W.units.card * (W.vars.card * (W.values.card + 1))

/-- Only units of the world wait or read its names, and its names are there. -/
structure Holds (s : Session) : Prop where
  queued : ∀ job ∈ s.queue.jobs, job.unit ∈ W.units
  there : ∀ x ∈ W.vars, x.index < s.records.size
  readers : ∀ x ∈ W.vars, ∀ u ∈ (s.var x).readers, u ∈ W.units

end World

/-- What has been done so far: how often names changed, which units were queued as new definitions,
and how often each unit was queued in answer to a change. -/
structure Ledger where
  grown : Nat := 0
  created : Finset UnitId := ∅
  answered : UnitId → Nat := fun _ => 0

/-- One act of a body, with the ledger before and after it. A unit is queued as a new definition once,
and in answer to changes once for each change at most. What else a body does is its own business as
long as it touches neither the queue nor the names of the world. -/
inductive Act (W : World) : Session × Ledger → Session × Ledger → Prop
  | grow {s t : Session} {l : Ledger} {x : VarId} {values : ValueSet} (hx : x ∈ W.vars)
      (within : values.Within W.values) (h : addTypes x values s = .ok true t) :
      Act W (s, l) (t, { l with grown := l.grown + 1 })
  | keep {s t : Session} {l : Ledger} {x : VarId} {values : ValueSet}
      (h : addTypes x values s = .ok false t) : Act W (s, l) (t, l)
  | read {s : Session} {l : Ledger} {x : VarId} {u : UnitId} (hu : u ∈ W.units) :
      Act W (s, l) (after (addReader x u) s, l)
  | create {s : Session} {l : Ledger} {u : UnitId} {place : QueueEnd} (hu : u ∈ W.units)
      (new : u ∉ l.created) :
      Act W (s, l) (after (enqueue u place) s, { l with created := insert u l.created })
  | answer {s : Session} {l : Ledger} {u : UnitId} {place : QueueEnd} (hu : u ∈ W.units)
      (unspent : l.answered u < l.grown) :
      Act W (s, l) (after (enqueue u place) s,
        { l with answered := Function.update l.answered u (l.answered u + 1) })
  | other {s t : Session} {l : Ledger} (queue : t.queue = s.queue)
      (size : s.records.size ≤ t.records.size) (var : ∀ x ∈ W.vars, t.var x = s.var x) :
      Act W (s, l) (t, l)

abbrev Acts (W : World) : Session × Ledger → Session × Ledger → Prop :=
  Relation.ReflTransGen (Act W)

/-- What can still be put on the queue, together with what waits. -/
def World.potential (W : World) (s : Session) (l : Ledger) : Nat :=
  s.queue.size + (W.units \ l.created).card + ∑ u ∈ W.units, (l.grown - l.answered u) +
    2 * W.units.card * ∑ x ∈ W.vars, (s.types x).room W.values

private theorem World.potential_le_bound (W : World) (s : Session) :
    W.potential s {} ≤ W.bound s.queue.size := by
  have rooms : ∑ x ∈ W.vars, (s.types x).room W.values ≤
      W.vars.card * (W.values.card + 1) :=
    Finset.sum_le_card_nsmul _ _ _ fun x _ => ValueSet.room_le W.values (s.types x)
  have paid := Nat.mul_le_mul_left (2 * W.units.card) rooms
  simp only [potential, bound, Finset.sdiff_empty, Nat.sub_self, Finset.sum_const_zero]
  omega

private theorem size_enqueue (u : UnitId) (place : QueueEnd) (s : Session) :
    (after (enqueue u place) s).queue.size ≤ s.queue.size + 1 := by
  rcases enqueue_cases u place s with ⟨stays, -⟩ | ⟨queue, metrics, -, pushed, ends⟩
  · rw [stays]
    omega
  · rw [ends]
    have := WorkQueue.size_push? pushed
    simp only
    omega

def idlers (us : List UnitId) (s : Session) : Finset UnitId :=
  us.toFinset.filter fun u => s.queue.holds (s.job u) = false

/-- A unit that stands in a list twice is put on the queue once. -/
theorem size_forM_enqueue (us : List UnitId) (s : Session) :
    (after (us.forM fun u => enqueue u .back) s).queue.size ≤ s.queue.size + (idlers us s).card := by
  induction us generalizing s with
  | nil => exact Nat.le_add_right _ _
  | cons u rest ih =>
    rw [after_forM_cons fun u => total_enqueue u .back]
    have later := ih (after (enqueue u .back) s)
    have queues := queues_enqueue u .back s
    rcases enqueue_cases u .back s with ⟨stays, -⟩ | ⟨queue, metrics, alive, pushed, ends⟩
    · rw [stays] at later ⊢
      have fewer : idlers rest s ⊆ idlers (u :: rest) s := by
        intro v hv
        simp only [idlers, Finset.mem_filter, List.mem_toFinset] at hv ⊢
        exact ⟨List.mem_cons_of_mem _ hv.1, hv.2⟩
      have := Finset.card_le_card fewer
      omega
    · have fewer : idlers rest (after (enqueue u .back) s) ⊆ (idlers (u :: rest) s).erase u := by
        intro v hv
        simp only [idlers, Finset.mem_filter, List.mem_toFinset, Finset.mem_erase] at hv ⊢
        refine ⟨?_, List.mem_cons_of_mem _ hv.1, ?_⟩
        · rintro rfl
          have held := queues.held v (List.mem_singleton_self v) alive
          rw [queues.job, held] at hv
          cases hv.2
        · by_contra held
          rw [queues.job, queues.holds (by simpa using held)] at hv
          cases hv.2
      have waits : u ∈ idlers (u :: rest) s := by
        have : s.queue.holds (s.job u) = false := by
          by_contra held
          rw [WorkQueue.push?_eq_none_iff.2 (by simpa using held)] at pushed
          cases pushed
        simp [idlers, this]
      have smaller := Finset.card_le_card fewer
      rw [Finset.card_erase_of_mem waits] at smaller
      have nonempty := Finset.card_pos.2 ⟨u, waits⟩
      have one := WorkQueue.size_push? pushed
      have size : (after (enqueue u .back) s).queue.size = queue.size := by rw [ends]
      omega

private theorem size_forM_enqueue_le {units : Finset UnitId} {us : List UnitId} (s : Session)
    (within : ∀ u ∈ us, u ∈ units) :
    (after (us.forM fun u => enqueue u .back) s).queue.size ≤ s.queue.size + units.card := by
  have pushed := size_forM_enqueue us s
  have few : (idlers us s).card ≤ units.card :=
    Finset.card_le_card fun u hu => within u (List.mem_toFinset.1 (Finset.mem_filter.1 hu).1)
  omega

/-- A change of a name of the world: every unit is queued once at most, and no other name changes. -/
theorem World.Holds.grow {W : World} {s : Session} {x : VarId} {values : ValueSet} {y : Variable}
    (holds : W.Holds s) (hx : x ∈ W.vars) (grew : (s.var x).grow? values = some y) :
    let t := after (notifyReaders x) { s with records := s.records.setIfInBounds x.index y }
    W.Holds t ∧ t.queue.size ≤ s.queue.size + W.units.card ∧ t.types x = y.types ∧
      ∀ z, z ≠ x → t.types z = s.types z := by
  intro t
  have inRange := holds.there x hx
  let grown : Session := { s with records := s.records.setIfInBounds x.index y }
  have now : grown.var x = y := by
    rw [var_setIfInBounds]
    exact if_pos ⟨rfl, inRange⟩
  let told := (grown.var x).sweep grown.isAlive
  have reading : ∀ u ∈ told.readers, u ∈ W.units := by
    intro u hu
    have := (Variable.mem_readers_sweep.1 hu).1
    rw [now, Variable.readers_of_grow? grew] at this
    exact holds.readers x hx u this
  let swept : Session := { grown with records := grown.records.setIfInBounds x.index told }
  have ends : t = after (told.readers.forM fun u => enqueue u .back) swept :=
    after_notifyReaders x grown
  have queues := queues_forM told.readers swept
  rw [← ends] at queues
  have var : ∀ z, t.var z = if z = x then told else s.var z := by
    intro z
    have there : x.index < grown.records.size := by simpa [grown] using inRange
    rw [show t.var z = _ from var_notifyReaders x z grown]
    by_cases hz : z = x
    · rw [if_pos ⟨hz, there⟩, if_pos hz]
    · rw [if_neg fun h => hz h.1, if_neg hz, var_setIfInBounds, if_neg fun h => hz h.1]
  refine ⟨⟨fun job hj => ?_, fun z hz => ?_, fun z hz u hu => ?_⟩, ?_, ?_, fun z hz => ?_⟩
  · rcases queues.only job hj with hj | hj
    · exact holds.queued job hj
    · exact reading _ hj
  · have : t.records.size = s.records.size := by
      rw [queues.frame]
      simp [swept, grown]
    rw [this]
    exact holds.there z hz
  · rw [var] at hu
    split at hu
    · exact reading u hu
    · exact holds.readers z hz u hu
  · rw [ends]
    exact size_forM_enqueue_le swept reading
  · have : told.types = y.types := by rw [← now]; rfl
    rw [types, var, if_pos rfl, this]
  · rw [types, var, if_neg hz, types]

theorem World.Holds.enqueue {W : World} {s : Session} {u : UnitId} (holds : W.Holds s)
    (hu : u ∈ W.units) (place : QueueEnd) : W.Holds (after (enqueue u place) s) := by
  have queues := queues_enqueue u place s
  have records : (after (Session.enqueue u place) s).records = s.records := by rw [queues.frame]
  refine ⟨fun job hj => ?_, ?_, ?_⟩
  · rcases queues.only job hj with hj | hj
    · exact holds.queued job hj
    · rw [List.mem_singleton.1 hj]
      exact hu
  · rw [records]
    exact holds.there
  · intro x hx v hv
    rw [Session.var, records] at hv
    exact holds.readers x hx v hv

theorem World.Holds.addReader {W : World} {s : Session} {u : UnitId} (holds : W.Holds s)
    (hu : u ∈ W.units) (x : VarId) : W.Holds (after (addReader x u) s) := by
  refine ⟨holds.queued, fun y hy => ?_, fun y hy v hv => ?_⟩
  · have : (after (Session.addReader x u) s).records.size = s.records.size := by
      simp [Session.addReader]
    rw [this]
    exact holds.there y hy
  · have look : (after (Session.addReader x u) s).var y =
        if y = x ∧ x.index < s.records.size then (s.var y).addReader s.isAlive u else s.var y :=
      Fills.var_modify s x y _
    rw [look] at hv
    split at hv
    · rcases Variable.mem_of_mem_addReader hv with hv | rfl
      · exact holds.readers y hy v hv
      · exact hu
    · exact holds.readers y hy v hv

/-- Values that are added change a name, or nothing at all. -/
theorem grow?_of_addTypes {x : VarId} {values : ValueSet} {s t : Session}
    (h : addTypes x values s = .ok true t) :
    ∃ y, (s.var x).grow? values = some y ∧
      t = after (notifyReaders x) { s with records := s.records.setIfInBounds x.index y } := by
  rcases addTypes_cases x values s with ⟨-, kept⟩ | ⟨y, grew, told⟩
  · rw [kept] at h
    cases h
  · rw [told] at h
    cases h
    exact ⟨y, grew, rfl⟩

private theorem eq_of_addTypes {x : VarId} {values : ValueSet} {s t : Session}
    (h : addTypes x values s = .ok false t) : t = s := by
  rcases addTypes_cases x values s with ⟨-, kept⟩ | ⟨y, -, told⟩
  · rw [kept] at h
    cases h
    rfl
  · rw [told] at h
    cases h

theorem Act.holds {W : World} {p q : Session × Ledger} (act : Act W p q) (holds : W.Holds p.1) :
    W.Holds q.1 := by
  cases act with
  | grow hx within h =>
    obtain ⟨y, grew, rfl⟩ := grow?_of_addTypes h
    exact (holds.grow hx grew).1
  | keep h =>
    rw [eq_of_addTypes h]
    exact holds
  | read hu => exact holds.addReader hu _
  | create hu new => exact holds.enqueue hu _
  | answer hu unspent => exact holds.enqueue hu _
  | other queue size var =>
    refine ⟨?_, fun x hx => ?_, fun x hx => ?_⟩
    · rw [queue]
      exact holds.queued
    · have := holds.there x hx
      simp only at this ⊢
      omega
    · rw [var x hx]
      exact holds.readers x hx

/-- A change of a name takes as much room as it can put units on the queue: all that read the name,
and all that are queued in answer to it. -/
theorem World.potential_grow {W : World} {s t : Session} {l : Ledger} {x : VarId}
    {values : ValueSet} (holds : W.Holds s) (hx : x ∈ W.vars) (within : values.Within W.values)
    (h : addTypes x values s = .ok true t) :
    W.potential t { l with grown := l.grown + 1 } ≤ W.potential s l := by
  obtain ⟨y, grew, ends⟩ := grow?_of_addTypes h
  obtain ⟨-, queue, changed, same⟩ := holds.grow hx grew
  rw [← ends] at queue changed same
  have rooms : ∑ z ∈ W.vars, (t.types z).room W.values + 1 ≤
      ∑ z ∈ W.vars, (s.types z).room W.values := by
    have less : (t.types x).room W.values < (s.types x).room W.values := by
      rw [changed]
      exact Variable.room_lt_of_grow? grew within
    apply Nat.succ_le_of_lt
    apply Finset.sum_lt_sum
    · intro z _
      by_cases hz : z = x
      · rw [hz]
        exact less.le
      · rw [same z hz]
    · exact ⟨x, hx, less⟩
  have paid := Nat.mul_le_mul_left (2 * W.units.card) rooms
  rw [Nat.mul_succ] at paid
  have answers : ∑ u ∈ W.units, (l.grown + 1 - l.answered u) ≤
      ∑ u ∈ W.units, (l.grown - l.answered u) + W.units.card := by
    rw [Finset.card_eq_sum_ones, ← Finset.sum_add_distrib]
    exact Finset.sum_le_sum fun u _ => by omega
  unfold potential
  dsimp only
  omega

/-- An answer is paid by the change that it answers. -/
theorem Ledger.answer_lt {units : Finset UnitId} {l : Ledger} {u : UnitId} (hu : u ∈ units)
    (unspent : l.answered u < l.grown) :
    ∑ v ∈ units, (l.grown - Function.update l.answered u (l.answered u + 1) v) + 1 ≤
      ∑ v ∈ units, (l.grown - l.answered v) := by
  apply Nat.succ_le_of_lt
  apply Finset.sum_lt_sum
  · intro v _
    by_cases hv : v = u
    · rw [hv, Function.update_self]
      omega
    · rw [Function.update_of_ne hv]
  · refine ⟨u, hu, ?_⟩
    rw [Function.update_self]
    omega

/-- No act adds to what can still be put on the queue. -/
theorem Act.potential_le {W : World} {p q : Session × Ledger} (act : Act W p q)
    (holds : W.Holds p.1) : W.potential q.1 q.2 ≤ W.potential p.1 p.2 := by
  cases act with
  | grow hx within h => exact W.potential_grow holds hx within h
  | keep h =>
    rw [eq_of_addTypes h]
  | @read s l x u hu =>
    have types : ∀ y, (after (addReader x u) s).types y = s.types y := by
      intro y
      have look : (after (addReader x u) s).var y =
          if y = x ∧ x.index < s.records.size then (s.var y).addReader s.isAlive u else s.var y :=
        Fills.var_modify s x y _
      rw [Session.types, look]
      split
      · exact Variable.types_addReader _ _ _
      · rfl
    have queue : (after (addReader x u) s).queue = s.queue := rfl
    simp only [World.potential, types, queue]
    exact Nat.le_refl _
  | @create s l u place hu new =>
    have types : ∀ y, (after (enqueue u place) s).types y = s.types y := by
      intro y
      rw [(queues_enqueue u place s).frame]
      rfl
    have size := size_enqueue u place s
    have made : (W.units \ insert u l.created).card + 1 = (W.units \ l.created).card := by
      have : u ∈ W.units \ l.created := Finset.mem_sdiff.2 ⟨hu, new⟩
      rw [Finset.sdiff_insert, Finset.card_erase_add_one this]
    simp only [World.potential, types]
    omega
  | @answer s l u place hu unspent =>
    have types : ∀ y, (after (enqueue u place) s).types y = s.types y := by
      intro y
      rw [(queues_enqueue u place s).frame]
      rfl
    have size := size_enqueue u place s
    have paid := Ledger.answer_lt hu unspent
    simp only [World.potential, types]
    omega
  | @other s t l queue size var =>
    have rooms : ∑ x ∈ W.vars, (t.types x).room W.values =
        ∑ x ∈ W.vars, (s.types x).room W.values :=
      Finset.sum_congr rfl fun x hx => by rw [types, var x hx, types]
    simp only [World.potential, rooms, queue]
    exact Nat.le_refl _

private theorem Acts.spends {W : World} {p q : Session × Ledger} (acts : Acts W p q)
    (holds : W.Holds p.1) : W.Holds q.1 ∧ W.potential q.1 q.2 ≤ W.potential p.1 p.2 := by
  induction acts with
  | refl => exact ⟨holds, Nat.le_refl _⟩
  | tail _ act ih =>
    obtain ⟨holds, spent⟩ := ih
    exact ⟨act.holds holds, (act.potential_le holds).trans spent⟩

/-- The scheduler has kept its log, its measurements and its reports, and nothing else has changed. -/
def Tended (s t : Session) : Prop :=
  t = { s with log := t.log, metrics := t.metrics, reports := t.reports }

namespace Tended

variable {s t r : Session}

theorem trans (h : Tended s t) (g : Tended t r) : Tended s r := by
  unfold Tended at *
  rw [g, h]

theorem holds {W : World} (h : Tended s t) (holds : W.Holds s) : W.Holds t := by
  rw [h]
  exact ⟨holds.queued, holds.there, holds.readers⟩

private theorem potential (h : Tended s t) (W : World) (l : Ledger) : W.potential t l = W.potential s l := by
  rw [h]
  rfl

end Tended

private theorem tended_begun (s : Session) (queue : WorkQueue) (u : UnitId) :
    Tended { s with queue } (s.begun queue u) := rfl

/-- A run that nobody cancels is not asked to stop by its reports. -/
theorem reportAfter_tended (processed : Nat) (s : Session) :
    ∃ t, reportAfter .never processed s = .ok false t ∧ Tended s t := by
  unfold reportAfter
  rw [read_run]
  cases s.reportEvery with
  | none => exact ⟨s, rfl, rfl⟩
  | some interval =>
    by_cases h : processed % interval ≠ 0
    · exact ⟨s, by simp only [if_pos h]; rfl, rfl⟩
    · exact ⟨{ s with reports := s.reports ++ [s.queue.size] }, by simp only [if_neg h]; rfl, rfl⟩

/-- The bodies of the units of a world. In the sessions that they are made for they end normally, and
act on the queue and on the names of the world as the ledger allows. Taking a unit off the queue and
the books of the scheduler do not matter to them. -/
structure Behaviour (W : World) where
  run : UnitId → Analysis Unit
  /-- The sessions and ledgers that the bodies are made for. -/
  law : Session → Ledger → Prop
  acts : ∀ {s : Session} {l : Ledger} {u : UnitId}, law s l → u ∈ W.units → s.isAlive u = true →
    ∃ t l', run u s = .ok () t ∧ Acts W (s, l) (t, l') ∧ law t l'
  popped : ∀ {s : Session} {l : Ledger} {job : Job} {queue : WorkQueue}, law s l →
    s.queue.pop? = some (job, queue) → law { s with queue } l
  tended : ∀ {s t : Session} {l : Ledger}, law s l → Tended s t → law t l

theorem Behaviour.turn {W : World} (B : Behaviour W) {s : Session} {l : Ledger} {u : UnitId}
    (processed : Nat) (holds : W.Holds s) (lawful : B.law s l) (hu : u ∈ W.units)
    (alive : s.isAlive u = true) :
    ∃ t l', turnAction B.run .never processed u s = .ok false t ∧ W.Holds t ∧ B.law t l' ∧
      W.potential t l' ≤ W.potential s l := by
  obtain ⟨r, l', ran, acts, lawful⟩ := B.acts lawful hu alive
  obtain ⟨held, spent⟩ := acts.spends holds
  let counted : Session := { r with metrics := r.metrics.count "units_processed" (1 : Nat).toUInt64 }
  have counts : count "units_processed" 1 r = .ok () counted := rfl
  obtain ⟨t, reported, tended⟩ := reportAfter_tended (processed + 1) counted
  have books : Tended r t := Tended.trans (t := counted) rfl tended
  refine ⟨t, l', ?_, books.holds held, B.tended lawful books, ?_⟩
  · rw [turnAction, bind_of_ok ran, bind_of_ok counts]
    exact reported
  · rw [books.potential]
    exact spent

/-- Each unit that is taken off the queue takes one from what can still be put on it. -/
theorem Behaviour.drains {W : World} (B : Behaviour W) {k : Nat} {s : Session} {l : Ledger}
    (processed : Nat) (holds : W.Holds s) (lawful : B.law s l) (enough : W.potential s l ≤ k) :
    ∃ n t, n ≤ processed + k ∧ t.queue.jobs = [] ∧
      ∀ fuel, k < fuel → drain B.run .never false processed fuel s = .ok n t := by
  induction k generalizing processed s l with
  | zero =>
    have empty : s.queue.jobs = [] := by
      apply List.eq_nil_of_length_eq_zero
      have : s.queue.size = s.queue.jobs.length := rfl
      unfold World.potential at enough
      omega
    refine ⟨processed, s, Nat.le_refl _, empty, fun fuel hf => ?_⟩
    obtain ⟨fuel, rfl⟩ := Nat.exists_eq_succ_of_ne_zero hf.ne'
    exact drain_empty (WorkQueue.pop?_eq_none_iff.2 empty)
  | succ k ih =>
    cases hp : s.queue.pop? with
    | none =>
      refine ⟨processed, s, by omega, WorkQueue.pop?_eq_none_iff.1 hp, fun fuel hf => ?_⟩
      obtain ⟨fuel, rfl⟩ := Nat.exists_eq_succ_of_ne_zero (Nat.ne_zero_of_lt hf)
      exact drain_empty hp
    | some popped =>
      obtain ⟨job, queue⟩ := popped
      have jobs : s.queue.jobs = job :: queue.jobs := Sane.of_pop hp
      have queued : ∀ other ∈ job :: queue.jobs, other.unit ∈ W.units := jobs ▸ holds.queued
      have holds' : W.Holds { s with queue } :=
        ⟨fun other hj => queued other (List.mem_cons_of_mem _ hj), holds.there, holds.readers⟩
      have lawful' : B.law { s with queue } l := B.popped lawful hp
      have fewer : W.potential { s with queue } l ≤ k := by
        have : s.queue.size = queue.size + 1 := by simp [WorkQueue.size, jobs]
        have : W.potential s l = W.potential { s with queue } l + 1 := by
          unfold World.potential Session.types Session.var
          dsimp only
          omega
        omega
      cases ha : s.isAlive job.unit with
      | false =>
        obtain ⟨n, t, few, empty, ends⟩ := ih processed holds' lawful' fewer
        refine ⟨n, t, by omega, empty, fun fuel hf => ?_⟩
        obtain ⟨fuel, rfl⟩ := Nat.exists_eq_succ_of_ne_zero (Nat.ne_zero_of_lt hf)
        rw [drain_pass hp ha]
        exact ends fuel (by omega)
      | true =>
        have tended := tended_begun s queue job.unit
        obtain ⟨r, l', went, held, lawful, spent⟩ := B.turn processed (tended.holds holds')
          (B.tended lawful' tended) (queued job List.mem_cons_self) ha
        rw [tended.potential] at spent
        obtain ⟨n, t, few, empty, ends⟩ := ih (processed + 1) held lawful (spent.trans fewer)
        refine ⟨n, t, by omega, empty, fun fuel hf => ?_⟩
        obtain ⟨fuel, rfl⟩ := Nat.exists_eq_succ_of_ne_zero (Nat.ne_zero_of_lt hf)
        rw [drain_turn hp ha, bind_of_ok went]
        exact ends fuel (by omega)

/-- Whatever the bodies of a finite world do, a run that nobody cancels empties the queue after a
number of runs that the sizes of the world and of the queue bound. -/
theorem worklist_terminates (W : World) (B : Behaviour W) (s : Session) (holds : W.Holds s)
    (lawful : B.law s {}) :
    ∃ n t, n ≤ W.bound s.queue.size ∧ t.queue.jobs = [] ∧
      ∀ fuel, W.bound s.queue.size < fuel → drain B.run .never false 0 fuel s = .ok n t := by
  have drains := B.drains 0 holds lawful (W.potential_le_bound s)
  simpa only [Nat.zero_add] using drains

/-- Two units that read each other's name and give a value to their own one; a change is passed on to
the other unit at once, ahead of all that waits. -/
def echo (u : UnitId) : Analysis Unit := do
  let other : Nat := 1 - u.index
  addReader ⟨other⟩ u
  if ← addTypes ⟨u.index⟩ (.single (some ⟨0⟩)) then enqueue ⟨other⟩ .front

def echoWorld : World := ⟨{⟨0⟩, ⟨1⟩}, {⟨0⟩, ⟨1⟩}, {⟨0⟩}⟩

private theorem echo_acts {s : Session} {l : Ledger} {u : UnitId} (lawful : ∀ v, l.answered v ≤ l.grown)
    (hu : u ∈ echoWorld.units) :
    ∃ t l', echo u s = .ok () t ∧ Acts echoWorld (s, l) (t, l') ∧ ∀ v, l'.answered v ≤ l'.grown := by
  have both : u = ⟨0⟩ ∨ u = ⟨1⟩ := by simpa [echoWorld] using hu
  have named : (⟨u.index⟩ : VarId) ∈ echoWorld.vars := by
    rcases both with rfl | rfl <;> decide
  have other : (⟨1 - u.index⟩ : UnitId) ∈ echoWorld.units := by
    rcases both with rfl | rfl <;> decide
  let read := after (addReader ⟨1 - u.index⟩ u) s
  have reads : addReader ⟨1 - u.index⟩ u s = .ok () read := rfl
  have first : Acts echoWorld (s, l) (read, l) := .single (.read hu)
  have run : echo u s = (addTypes ⟨u.index⟩ (.single (some ⟨0⟩)) >>= fun changed =>
      if changed then enqueue ⟨1 - u.index⟩ .front else pure ()) read := by
    unfold echo
    rw [bind_of_ok reads]
  have within : (ValueSet.single (some ⟨0⟩)).Within echoWorld.values := .inr (by decide)
  rcases addTypes_cases ⟨u.index⟩ (.single (some ⟨0⟩)) read with ⟨-, kept⟩ | ⟨y, -, told⟩
  · refine ⟨read, l, ?_, first, lawful⟩
    rw [run, bind_of_ok kept]
    rfl
  · let answered := Function.update l.answered ⟨1 - u.index⟩ (l.answered ⟨1 - u.index⟩ + 1)
    let grown := after (notifyReaders ⟨u.index⟩)
      { read with records := read.records.setIfInBounds u.index y }
    obtain ⟨⟨⟩, queued⟩ := total_enqueue ⟨1 - u.index⟩ .front grown
    refine ⟨after (enqueue ⟨1 - u.index⟩ .front) grown, ⟨l.grown + 1, l.created, answered⟩, ?_,
      (first.tail (.grow named within told)).tail (.answer other ?_), fun v => ?_⟩
    · rw [run, bind_of_ok told]
      exact queued
    · have := lawful ⟨1 - u.index⟩
      dsimp only
      omega
    · have := lawful v
      dsimp only [answered]
      by_cases hv : v = ⟨1 - u.index⟩
      · rw [hv] at this ⊢
        rw [Function.update_self]
        omega
      · rw [Function.update_of_ne hv]
        omega

def echoBehaviour : Behaviour echoWorld where
  run := echo
  law _ l := ∀ v, l.answered v ≤ l.grown
  acts lawful hu _ := echo_acts lawful hu
  popped lawful _ := lawful
  tended lawful _ := lawful

def echoSession : Session :=
  { units := #[⟨none, ⟨0⟩, default, false⟩, ⟨none, ⟨1⟩, default, false⟩]
    records := #[{}, {}]
    queue := ⟨[⟨⟨0⟩, ⟨0⟩, default⟩], [(⟨0⟩, default)], ⟨by decide, .refl _⟩⟩ }

theorem worklist_terminates_echoing :
    ∃ n t, n ≤ 19 ∧ t.queue.jobs = [] ∧
      ∀ fuel, 19 < fuel → drain echo .never false 0 fuel echoSession = .ok n t :=
  worklist_terminates echoWorld echoBehaviour echoSession
    ⟨by decide, by decide, by decide⟩ fun _ => Nat.le_refl _

end Session

end Typeflow
