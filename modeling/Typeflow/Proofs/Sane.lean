import Typeflow.Proofs.Life
import Typeflow.Proofs.Numbering

/-! What holds of a session all its life: it is coherent, and the nodes of its trees are told apart. -/
namespace Typeflow.Session

/-- The numbers of the current trees are in use, bodies and places for values never share one, and no two
bodies do. No body goes by two names. -/
structure Numbered (s : Session) : Prop where
  bodyBelow : ∀ e tree, (s.entry e).tree = some tree →
    ∀ b ∈ tree.bodies, b.node.id.index < s.nextNode
  spotBelow : ∀ e tree, (s.entry e).tree = some tree → ∀ n ∈ tree.spots, n.index < s.nextNode
  apart : ∀ e f tree other, (s.entry e).tree = some tree → (s.entry f).tree = some other →
    ∀ b ∈ tree.bodies, b.node.id ∉ other.spots
  same : ∀ e f tree other, (s.entry e).tree = some tree → (s.entry f).tree = some other →
    ∀ b ∈ tree.bodies, ∀ d ∈ other.bodies, b.node.id = d.node.id → e = f ∧ b = d
  named : ∀ e tree, (s.entry e).tree = some tree → ∀ b ∈ tree.bodies, NamedOnce b.functions

/-- The trees are the same, and no number has become free. -/
structure KeepsTrees (s t : Session) : Prop where
  tree : ∀ e tree, (t.entry e).tree = some tree → (s.entry e).tree = some tree
  nextNode : s.nextNode ≤ t.nextNode

theorem KeepsTrees.refl (s : Session) : KeepsTrees s s := ⟨fun _ _ h => h, Nat.le_refl _⟩

theorem KeepsTrees.trans {s t r : Session} (h : KeepsTrees s t) (g : KeepsTrees t r) : KeepsTrees s r :=
  ⟨fun e tree ht => h.tree e tree (g.tree e tree ht), Nat.le_trans h.nextNode g.nextNode⟩

theorem KeepsTrees.of_still {keep : NodeId → Prop} {s t : Session} (h : Still keep s t) :
    KeepsTrees s t := by
  refine ⟨fun e tree ht => ?_, Nat.le_of_eq h.nextNode.symm⟩
  obtain ⟨n, hn⟩ := h.entry e
  rwa [hn] at ht

theorem KeepsTrees.of_bookkeeping {s t : Session} (h : Bookkeeping s t) : KeepsTrees s t := by
  have still : Still (fun _ => False) s t := .of_bookkeeping h
  exact .of_still still

theorem KeepsTrees.of_starts {v : ValueId} {e : EntryId} {body : Body} {scope : ScopeId} {s t : Session}
    (h : Starts v e body scope s t) : KeepsTrees s t := by
  refine ⟨fun f tree ht => ?_, Nat.le_of_eq h.nextNode.symm⟩
  rw [h.entry] at ht
  split at ht <;> exact ht

theorem Step.keepsTrees {L : Licence} {s t : Session} (hc : Coherent s) (h : Step L s t) :
    KeepsTrees s t := by
  cases h.shape hc with
  | still ht => exact .of_still ht
  | starts v e body scope place r code hr _ enqueued =>
    exact (KeepsTrees.of_starts hr).trans (.of_still enqueued)
  | defines u body licensed ht =>
    refine ⟨fun f tree hf => ?_, Nat.le_of_eq ht.nextNode.symm⟩
    rw [ht.entry] at hf
    split at hf <;> exact hf

theorem Numbered.keepsTrees {s t : Session} (h : Numbered s) (hk : KeepsTrees s t) : Numbered t where
  bodyBelow e tree ht b hb :=
    Nat.lt_of_lt_of_le (h.bodyBelow e tree (hk.tree e tree ht) b hb) hk.nextNode
  spotBelow e tree ht n hn :=
    Nat.lt_of_lt_of_le (h.spotBelow e tree (hk.tree e tree ht) n hn) hk.nextNode
  apart e f tree other ht ho := h.apart e f tree other (hk.tree e tree ht) (hk.tree f other ho)
  same e f tree other ht ho := h.same e f tree other (hk.tree e tree ht) (hk.tree f other ho)
  named e tree ht := h.named e tree (hk.tree e tree ht)

/-- A new tree takes numbers that are still free. -/
theorem Numbered.withTree {s t : Session} (h : Numbered s) (e : EntryId) {new : Tree} {next : Nat}
    (fresh : Fresh s.nextNode next new.spots new.bodies) (named : ∀ b ∈ new.bodies, NamedOnce b.functions)
    (nextNode : t.nextNode = next)
    (tree : ∀ f tree, (t.entry f).tree = some tree →
      (s.entry f).tree = some tree ∧ f ≠ e ∨ f = e ∧ tree = new) : Numbered t where
  bodyBelow f tr ht b hb := by
    rw [nextNode]
    rcases tree f tr ht with ⟨old, -⟩ | ⟨-, rfl⟩
    · exact Nat.lt_of_lt_of_le (h.bodyBelow f tr old b hb) fresh.le
    · exact (fresh.body b hb).2
  spotBelow f tr ht n hn := by
    rw [nextNode]
    rcases tree f tr ht with ⟨old, -⟩ | ⟨-, rfl⟩
    · exact Nat.lt_of_lt_of_le (h.spotBelow f tr old n hn) fresh.le
    · exact (fresh.spot n hn).2
  apart f g tr other ht ho b hb hn := by
    rcases tree f tr ht with ⟨old, -⟩ | ⟨-, rfl⟩ <;> rcases tree g other ho with ⟨old', -⟩ | ⟨-, rfl⟩
    · exact h.apart f g tr other old old' b hb hn
    · exact absurd (h.bodyBelow f tr old b hb) (Nat.not_lt_of_le (fresh.spot _ hn).1)
    · exact absurd (h.spotBelow g other old' _ hn) (Nat.not_lt_of_le (fresh.body b hb).1)
    · exact fresh.apart b hb hn
  same f g tr other ht ho b hb d hd hn := by
    rcases tree f tr ht with ⟨old, -⟩ | ⟨hf, rfl⟩ <;>
      rcases tree g other ho with ⟨old', -⟩ | ⟨hg, rfl⟩
    · exact h.same f g tr other old old' b hb d hd hn
    · exact absurd (hn ▸ h.bodyBelow f tr old b hb) (Nat.not_lt_of_le (fresh.body d hd).1)
    · exact absurd (hn ▸ h.bodyBelow g other old' d hd) (Nat.not_lt_of_le (fresh.body b hb).1)
    · exact ⟨hf.trans hg.symm, fresh.same b hb d hd hn⟩
  named f tr ht := by
    rcases tree f tr ht with ⟨old, -⟩ | ⟨-, rfl⟩
    · exact h.named f tr old
    · exact named

theorem tree_replaceTree (s : Session) (e : EntryId) (tree : Option Tree) (inRange : e.index < s.entries.size)
    (f : EntryId) : ((after (replaceTree e tree) s).entry f).tree =
      if f = e then (s.numbered tree).1 else (s.entry f).tree := by
  obtain ⟨r, ht, ends⟩ := after_replaceTree e tree s
  have start : ((s.withTree e (s.numbered tree).1 (s.numbered tree).2).entry f).tree =
      if f = e then (s.numbered tree).1 else (s.entry f).tree := by
    rw [show (s.withTree e _ (s.numbered tree).2).entry f = _ from
      entry_modify { s with nextNode := (s.numbered tree).2 } e f _]
    by_cases hf : f = e
    · rw [if_pos ⟨hf, inRange⟩, if_pos hf]
    · rw [if_neg fun h => hf h.1, if_neg hf]
      rfl
  have retired : (r.entry f).tree = if f = e then (s.numbered tree).1 else (s.entry f).tree := by
    rw [← start, ht.entry]
    split <;> rfl
  rw [← retired, ends]
  split
  · rfl
  · next new _ =>
    obtain ⟨more, hm, -⟩ := Coherent.entry_withHead (r.withoutNodeValues (r.moduleScopeOf e)) e
      (r.moduleScopeOf e) new.toBody f
    rw [hm]
    rfl

theorem nextNode_replaceTree (s : Session) (e : EntryId) (tree : Option Tree) :
    (after (replaceTree e tree) s).nextNode = (s.numbered tree).2 := by
  obtain ⟨r, ht, ends⟩ := after_replaceTree e tree s
  have kept : r.nextNode = (s.numbered tree).2 := by rw [ht.frame]; rfl
  rw [← kept, ends]
  split <;> rfl

theorem Numbered.replaceTree {s : Session} (h : Numbered s) {e : EntryId} (tree : Option Tree)
    (inRange : e.index < s.entries.size) : Numbered (after (replaceTree e tree) s) := by
  have trees := tree_replaceTree s e tree inRange
  have next := nextNode_replaceTree s e tree
  cases tree with
  | none =>
    refine h.keepsTrees ⟨fun f tr hf => ?_, Nat.le_of_eq next.symm⟩
    rw [trees] at hf
    split at hf
    · cases hf
    · exact hf
  | some tree =>
    refine h.withTree e (tree.fresh_number s.nextNode) (tree.named_number s.nextNode) next fun f tr hf => ?_
    rw [trees] at hf
    split at hf
    · next he => exact .inr ⟨he, (Option.some.inj hf).symm⟩
    · next he => exact .inl ⟨hf, he⟩

theorem keepsTrees_removeModule (s : Session) (e : EntryId) :
    KeepsTrees s (after (removeModule (some e)) s) := by
  rcases after_removeModule e s with ⟨-, ends⟩ | ⟨b, r, hb, ht, close⟩
  · rw [ends]
    exact .refl s
  · have retired : KeepsTrees b r := by
      refine ⟨fun f tree hf => ?_, Nat.le_of_eq (by rw [ht.frame]; rfl)⟩
      rw [ht.entry] at hf
      have marked : ((b.withoutEntry e).entry f).tree = (b.entry f).tree := by
        rw [show (b.withoutEntry e).entry f = _ from entry_modify b e f _]
        split <;> rfl
      rw [← marked]
      split at hf <;> exact hf
    have cleared : Still (fun _ => False) r (after (clearModule (s.entry e).module) r) := .clearModule _
    exact ((KeepsTrees.of_bookkeeping hb).trans retired).trans
      ((KeepsTrees.of_still cleared).trans (.of_bookkeeping close))

theorem keepsTrees_withEntry (s : Session) (name path : String) :
    KeepsTrees s (s.withEntry name path) := by
  refine ⟨fun e tree ht => ?_, Nat.le_refl _⟩
  have look : (s.withEntry name path).entry e =
      if e.index = s.entries.size then { name, path, module := ⟨s.values.size⟩ } else s.entry e := by
    simp only [entry, withEntry, getD_push]
  rw [look] at ht
  split at ht
  · cases ht
  · exact ht

/-- What holds of a session all its life. -/
structure Sane (s : Session) : Prop where
  coherent : Coherent s
  numbered : Numbered s

namespace Sane

variable {s t : Session} {es : List Event}

theorem step {L : Licence} (h : Sane s) (hl : L.Sound s) (hs : Step L s t) : Sane t :=
  ⟨h.coherent.step hl hs, h.numbered.keepsTrees (hs.keepsTrees h.coherent)⟩

theorem steps {L : Licence} (h : Sane s) (hl : L.Sound s) (hs : Steps L s t) : Sane t ∧ L.Sound t :=
  hs.induct (P := fun s => Sane s ∧ L.Sound s)
    (fun _ _ hst hp => ⟨hp.1.step hp.2 hst, hp.2.step hp.1.coherent hst⟩) ⟨h, hl⟩

/-- An invariant of every step from a session that is as good as that is one of any number of steps. -/
theorem steps_induct {L : Licence} {P : Session → Prop} (h : Sane s) (hl : L.Sound s)
    (hs : Steps L s t) (start : P s) (step : ∀ r q, Sane r → L.Sound r → Step L r q → P r → P q) :
    P t := by
  have both : (Sane t ∧ L.Sound t) ∧ P t :=
    hs.induct (P := fun t => (Sane t ∧ L.Sound t) ∧ P t)
      (fun r q next ⟨⟨sane, sound⟩, hp⟩ =>
        ⟨⟨sane.step sound next, sound.step sane.coherent next⟩, step r q sane sound next hp⟩)
      ⟨⟨h, hl⟩, start⟩
  exact both.2

theorem withQueue (h : Sane s) {queue : WorkQueue} (hq : ∀ job ∈ queue.jobs, job ∈ s.queue.jobs) :
    Sane { s with queue } :=
  ⟨h.coherent.withQueue hq, h.numbered.keepsTrees ⟨fun _ _ ht => ht, Nat.le_refl _⟩⟩

theorem bookkeeping (h : Sane s) (hs : Bookkeeping s t) : Sane t :=
  ⟨h.coherent.bookkeeping hs, h.numbered.keepsTrees (.of_bookkeeping hs)⟩

theorem of_pop {job : Job} {queue : WorkQueue} (hp : s.queue.pop? = some (job, queue)) :
    s.queue.jobs = job :: queue.jobs := WorkQueue.jobs_of_pop? hp

theorem bookkeeping_begun (queue : WorkQueue) (u : UnitId) :
    Bookkeeping { s with queue } (s.begun queue u) := by
  constructor <;> rfl

/-- A session that is about to run a unit is as good as before. -/
theorem begun (h : Sane s) {job : Job} {queue : WorkQueue} (hp : s.queue.pop? = some (job, queue)) :
    Sane (s.begun queue job.unit) := by
  refine (h.withQueue fun other ho => ?_).bookkeeping (bookkeeping_begun queue job.unit)
  rw [of_pop hp]
  exact List.mem_cons_of_mem _ ho

/-- A unit that may run is licensed to define what its body defines, if it defines anything. -/
theorem licence_sound (h : Sane s) {u : UnitId} (ha : s.isAlive u = true) :
    (licence u (s.unit u).body).Sound s := by
  cases he : (s.unit u).entry with
  | some e => exact h.coherent.licence_sound ha he
  | none =>
    rintro v body ⟨-, hb⟩
    rw [Body.definitions, (h.coherent.observer u ha he).2] at hb
    cases hb

/-- Every move leaves a session as good as before. -/
theorem move (h : Sane s) (hm : Move s es t) : Sane t := by
  cases hm with
  | change foreign hs => exact (h.steps (fun u body hd => (foreign.define u body hd).elim) hs).1
  | addEntry name path =>
    exact ⟨h.coherent.withEntry name path, h.numbered.keepsTrees (keepsTrees_withEntry s name path)⟩
  | observe =>
    exact ⟨h.coherent.withObserver, h.numbered.keepsTrees ⟨fun _ _ ht => ht, Nat.le_succ _⟩⟩
  | takeNode =>
    exact ⟨h.coherent.of_eq rfl rfl rfl rfl h.coherent.waiting,
      h.numbered.keepsTrees ⟨fun _ _ ht => ht, Nat.le_succ _⟩⟩
  | replaceTree e tree inRange =>
    exact ⟨(h.coherent.replaceTree inRange tree).1, h.numbered.replaceTree tree inRange⟩
  | removeModule e =>
    exact ⟨(h.coherent.removeModule e).1, h.numbered.keepsTrees (keepsTrees_removeModule s e)⟩
  | release =>
    refine ⟨h.coherent.releaseRetired, h.numbered.keepsTrees ?_⟩
    obtain ⟨liveUnits, watchers, metrics, ends⟩ := after_releaseRetired s
    rw [ends]
    exact ⟨fun _ _ ht => ht, Nat.le_refl _⟩
  | pass job queue hp dead =>
    refine h.withQueue fun other ho => ?_
    rw [of_pop hp]
    exact List.mem_cons_of_mem _ ho
  | turn job queue hp alive =>
    have start := h.begun hp
    exact (start.steps (start.licence_sound alive) (steps_runBody job.unit _)).1
  | drop => exact h.withQueue fun _ ho => by cases ho

/-- A session stays as good as it was all its life. -/
theorem moves (h : Sane s) (hm : Moves s es t) : Sane t :=
  hm.induct (P := fun _ t => Sane t) (fun _ _ _ _ last ih => ih.move last) h

/-- An invariant of every move of a session that is as good as that is one of its whole life. -/
theorem moves_induct {P : List Event → Session → Prop} (h : Sane s) (hm : Moves s es t) (start : P [] s)
    (move : ∀ es fs r q, Sane r → Move r fs q → P es r → P (es ++ fs) q) : P es t := by
  have both : Sane t ∧ P es t :=
    hm.induct (P := fun es t => Sane t ∧ P es t)
      (fun es fs r q last ⟨sane, hp⟩ => ⟨sane.move last, move es fs r q sane last hp⟩) ⟨h, start⟩
  exact both.2

end Sane

end Typeflow.Session
