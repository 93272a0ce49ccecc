import Typeflow.Proofs.Slots

/-! The nodes of functions and classes keep their definitions all the life of a session. -/
namespace Typeflow.Session

theorem slot_withoutNodeValues (s : Session) (c d : ScopeId) (n : NodeId) :
    (s.withoutNodeValues c).slot d n = if d = c ∧ c.index < s.scopes.size then none else s.slot d n := by
  have look : (s.withoutNodeValues c).scope d =
      if d = c ∧ c.index < s.scopes.size then { s.scope c with nodeValues := [] } else s.scope d := by
    simp only [Session.withoutNodeValues, Session.scope, getD_setIfInBounds, ScopeId.index_inj]
  rw [slot, look]
  split <;> rfl

/-- A new tree has numbers that no tree had. -/
theorem le_numbered (s : Session) (tree : Option Tree) : s.nextNode ≤ (s.numbered tree).2 := by
  cases tree with
  | none => exact Nat.le_refl _
  | some tree => exact (tree.fresh_number s.nextNode).le

private theorem le_of_numbered {s : Session} {tree : Option Tree} {new : Tree} (h : (s.numbered tree).1 = some new)
    {body : Body} (mem : body ∈ new.bodies) : s.nextNode ≤ body.node.id.index := by
  cases tree with
  | none => cases h
  | some tree =>
    obtain rfl := Option.some.inj h
    exact ((tree.fresh_number s.nextNode).body body mem).1

/-- Replacing a tree takes values from nodes at most. -/
theorem slot_replaceTree {s : Session} {e : EntryId} {tree : Option Tree} {c : ScopeId} {n : NodeId}
    (kept : (after (replaceTree e tree) s).slot c n ≠ none) :
    (after (replaceTree e tree) s).slot c n = s.slot c n := by
  obtain ⟨r, ht, ends⟩ := after_replaceTree e tree s
  have cleared : (after (replaceTree e tree) s).slot c n =
      (r.withoutNodeValues (r.moduleScopeOf e)).slot c n := by
    rw [ends]
    split <;> rfl
  rw [cleared, slot_withoutNodeValues] at kept ⊢
  split at kept
  · exact absurd rfl kept
  · next other =>
    rw [if_neg other]
    exact slot_of_scopes (by rw [ht.frame]; rfl) c n

private theorem slot_removeModule (s : Session) (e : EntryId) (c : ScopeId) (n : NodeId) :
    (after (removeModule (some e)) s).slot c n = s.slot c n := by
  rcases after_removeModule e s with ⟨-, ends⟩ | ⟨b, r, hb, ht, close⟩
  · rw [ends]
  · have closed : Still (fun _ => False) r (after (removeModule (some e)) s) :=
      (Still.clearModule _).trans (.of_bookkeeping close)
    refine (closed.nodes c n id).trans (slot_of_scopes ?_ c n)
    rw [ht.frame]
    exact hb.scopes

/-- Cutting off the definitions of a module leaves those of other modules alone. -/
theorem Stands.retires {s t : Session} {e f : EntryId} {detaching : Bool} {body : Body} {v : ValueId}
    (h : s.Stands f body v) (hs : Retires e detaching s t)
    (other : detaching = true → v ∉ (s.entry e).definitions) : t.Stands f body v := by
  have same : t.form v = s.form v := (hs.form v).trans (if_neg fun hd => other hd.1 hd.2)
  rw [Stands, same]
  exact h

namespace Slots

variable {s t : Session}

theorem withEntry (h : Slots s) (name path : String) : Slots (s.withEntry name path) := by
  have slots := slot_push (t := s.withEntry name path) rfl rfl
  refine h.of_kept (keepsTrees_withEntry s name path) (fun c n hn => ?_) (fun c _ _ _ _ => slots c _)
    fun e body v _ hv => ?_
  · rw [slots] at hn
    exact .inl hn
  · have form : (s.withEntry name path).form v = s.form v := by
      simp only [Session.form, Session.value, Session.withEntry, getD_push, Nat.ne_of_lt hv.inRange,
        if_false]
    rw [Stands, form]
    exact hv

theorem withObserver (h : Slots s) : Slots s.withObserver := by
  have slots := slot_push (t := s.withObserver) rfl rfl
  refine h.of_kept ⟨fun _ _ ht => ht, Nat.le_succ _⟩ (fun c n hn => ?_) (fun c _ _ _ _ => slots c _)
    fun _ _ _ _ hv => hv
  rw [slots] at hn
  exact .inl hn

/-- The bodies of a new tree have no definitions yet, and those of other trees keep theirs. -/
theorem replaceTree (h : Slots s) (hc : Coherent s) {e : EntryId} (inRange : e.index < s.entries.size)
    (tree : Option Tree) : Slots (after (replaceTree e tree) s) := by
  have trees := tree_replaceTree s e tree inRange
  have next := nextNode_replaceTree s e tree
  have slots : ∀ c n, (after (Session.replaceTree e tree) s).slot c n ≠ none →
      (after (Session.replaceTree e tree) s).slot c n = s.slot c n := fun _ _ => slot_replaceTree
  obtain ⟨r, ht, ends⟩ := after_replaceTree e tree s
  let t := after (Session.replaceTree e tree) s
  have fresh : s.nextNode ≤ t.nextNode := by
    rw [show t.nextNode = (s.numbered tree).2 from next]
    exact le_numbered s tree
  have forms : ∀ v, t.form v = r.form v := by
    intro v
    rw [show t = _ from ends]
    split <;> rfl
  have bodies : ∀ f body, t.hasBody f body → f ≠ e ∧ s.hasBody f body ∨
      f = e ∧ s.nextNode ≤ body.node.id.index := by
    rintro f body ⟨tr, current, mem⟩
    rw [show (t.entry f).tree = _ from trees f] at current
    split at current
    · next hf => exact .inr ⟨hf, le_of_numbered current mem⟩
    · next hf => exact .inl ⟨hf, tr, current, mem⟩
  constructor
  case below =>
    intro c n hn
    rw [slots c n hn] at hn
    exact Nat.lt_of_lt_of_le (h.below c n hn) fresh
  case made =>
    intro c f body values hb hv
    have kept : t.slot c body.node.id ≠ none := by rw [hv]; exact Option.some_ne_none _
    have old := (slots c _ kept).symm.trans hv
    rcases bodies f body hb with ⟨other, has⟩ | ⟨-, new⟩
    · obtain ⟨v, single, standing⟩ := h.made c f body values has old
      have changed : (s.withTree e (s.numbered tree).1 (s.numbered tree).2).Stands f body v := standing
      refine ⟨v, single, ?_⟩
      rw [Stands, show t.form v = r.form v from forms v]
      refine changed.retires ht fun _ mem => ?_
      have mem : v ∈ (s.entry e).definitions := by
        rw [show (s.withTree e _ (s.numbered tree).2).entry e = _ from
          entry_modify { s with nextNode := (s.numbered tree).2 } e e _, if_pos ⟨rfl, inRange⟩] at mem
        exact mem
      obtain ⟨code, hcode, he⟩ := hc.definitions e v mem
      obtain ⟨⟨found, hfound, hf, -⟩, -⟩ := standing
      rw [hcode] at hfound
      obtain rfl := Option.some.inj hfound
      exact other (Option.some.inj (hf.symm.trans he))
    · exact absurd (h.below c _ (by rw [old]; exact Option.some_ne_none _)) (Nat.not_lt_of_le new)

theorem removeModule (h : Slots s) (e : EntryId) : Slots (after (removeModule (some e)) s) := by
  have trees := keepsTrees_removeModule s e
  have slots := slot_removeModule s e
  rcases after_removeModule e s with ⟨-, ends⟩ | ⟨b, r, hb, ht, close⟩
  · rwa [ends]
  · have closed : Still (fun _ => False) r (after (Session.removeModule (some e)) s) :=
      (Still.clearModule _).trans (.of_bookkeeping close)
    refine h.of_kept trees (fun c n hn => ?_) (fun c _ _ _ _ => slots c _) fun f body v _ hv => ?_
    · rw [slots] at hn
      exact .inl hn
    · have marked : (b.withoutEntry e).Stands f body v := by
        rw [Stands, form, value, show (b.withoutEntry e).values = s.values from hb.values]
        exact hv
      exact (marked.retires ht fun hd => by cases hd).still closed

/-- Every move keeps the definitions of bodies where they are. -/
theorem move {es : List Event} (h : Slots s) (hs : Sane s) (hm : Move s es t) : Slots t := by
  cases hm with
  | change foreign hst => exact (Ready.foreign hs h foreign |>.steps hst).slots
  | addEntry name path => exact h.withEntry name path
  | observe => exact h.withObserver
  | takeNode => exact h.of_eq rfl rfl rfl (Nat.le_succ _)
  | replaceTree e tree inRange => exact h.replaceTree hs.coherent inRange tree
  | removeModule e => exact h.removeModule e
  | release =>
    obtain ⟨liveUnits, watchers, metrics, ends⟩ := after_releaseRetired s
    rw [ends]
    exact h.of_eq rfl rfl rfl (Nat.le_refl _)
  | pass job queue hp dead => exact h.of_eq rfl rfl rfl (Nat.le_refl _)
  | turn job queue hp alive =>
    have begun : Slots (s.begun queue job.unit) := h.of_eq rfl rfl rfl (Nat.le_refl _)
    exact ((Ready.licence (hs.begun hp) begun alive).steps (steps_runBody job.unit _)).slots
  | drop => exact h.of_eq rfl rfl rfl (Nat.le_refl _)

theorem moves {es : List Event} (h : Slots s) (hs : Sane s) (hm : Moves s es t) : Slots t :=
  hs.moves_induct (P := fun _ t => Slots t) hm h fun _ _ _ _ sane last slots => slots.move sane last

end Slots

end Typeflow.Session
