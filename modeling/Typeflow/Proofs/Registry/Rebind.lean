import Typeflow.Proofs.Registry.Apart
import Typeflow.Proofs.Registry.Install

/-! Binding names to other modules, which the replacements and the log do not notice. -/
namespace Typeflow

namespace Text

private theorem append_of_splitLastDot {name before after : List Char}
    (h : splitLastDot name = some (before, after)) : name = before ++ '.' :: after ∧ '.' ∉ after := by
  induction name generalizing before with
  | nil => cases h
  | cons c rest ih =>
    rw [splitLastDot] at h
    cases hr : splitLastDot rest with
    | some halves =>
      rw [hr] at h
      cases h
      obtain ⟨whole, last⟩ := ih hr
      exact ⟨congrArg (c :: ·) whole, last⟩
    | none =>
      rw [hr] at h
      dsimp only at h
      split_ifs at h with hc
      cases h
      refine ⟨by rw [hc]; rfl, fun dot => ?_⟩
      have found : ∀ text : List Char, '.' ∈ text → splitLastDot text ≠ none := by
        intro text
        induction text with
        | nil => exact fun absent => nomatch absent
        | cons d more ih =>
          intro there none
          rw [splitLastDot] at none
          cases hm : splitLastDot more with
          | some halves =>
            rw [hm] at none
            cases none
          | none =>
            rw [hm] at none
            dsimp only at none
            split_ifs at none with hd
            rcases List.mem_cons.1 there with rfl | there
            · exact hd rfl
            · exact ih there hm
      exact found _ dot hr

private theorem restAfter_append (start rest : List Char) : restAfter start (start ++ rest) = some rest := by
  induction start with
  | nil => rfl
  | cons c start ih => simpa [restAfter] using ih

/-- A name stands below what comes before its last dot. -/
theorem lastPartBelow?_of_lastDot {name parent last : String} (h : lastDot name = some (parent, last)) :
    (lastPartBelow? parent name).isSome = true := by
  obtain ⟨⟨before, after⟩, hs, same⟩ := Option.map_eq_some_iff.1 h
  obtain ⟨rfl, rfl⟩ := Prod.mk.inj same
  obtain ⟨whole, apart⟩ := append_of_splitLastDot hs
  have below : after? (String.ofList before ++ ".") name = some (String.ofList after) := by
    have start : chars (String.ofList before ++ ".") = before ++ ['.'] := by simp [chars_eq]
    rw [after?, start, whole, List.append_cons before _ after, restAfter_append, Option.map_some]
  have plain : hasDot (String.ofList after) = false := by simpa [hasDot, chars_eq] using apart
  simp [lastPartBelow?, below, plain]

end Text

namespace Session

variable {s t q : Session}

/-- The replacements and the log are as before. -/
structure Rebound (s t : Session) : Prop where
  replacement : ∀ m qualified, t.specialization? m qualified = s.specialization? m qualified
  registrations : t.registrations = s.registrations
  options : t.options = s.options
  hostRequests : t.hostRequests = s.hostRequests
  tabled : Tabled t

namespace Rebound

theorem of_aside (h : Aside s t) (tabled : Tabled s) : Rebound s t :=
  ⟨h.replacement, h.registrations, h.options, h.hostRequests, h.tabled tabled⟩

theorem refl (tabled : Tabled s) : Rebound s s := .of_aside (.refl s) tabled

theorem trans (h : Rebound s t) (g : Rebound t q) : Rebound s q :=
  ⟨fun m n => (g.replacement m n).trans (h.replacement m n), g.registrations.trans h.registrations,
    g.options.trans h.options, g.hostRequests.trans h.hostRequests, g.tabled⟩

theorem registered? (h : Rebound s t) (key : String × String) :
    t.registered? key = s.registered? key := by
  rw [Session.registered?, Session.registered?, h.registrations]

theorem registrationsFor (h : Rebound s t) (name : String) :
    t.registrationsFor name = s.registrationsFor name := by
  rw [Session.registrationsFor, Session.registrationsFor, h.registrations]

end Rebound

theorem ref_updateRef (s : Session) (r q : RefId) (f : ModuleRef → ModuleRef) :
    (after (updateRef r f) s).ref q =
      if q = r ∧ r.index < s.refs.size then f (s.ref q) else s.ref q := ref_modify s r q f

/-- A cell gets another module, which has been made. -/
theorem rebound_updateRef (tabled : Tabled s) (r : RefId) {f : ModuleRef → ModuleRef}
    (there : ∀ m, (f (s.ref r)).module = some m → m.index < s.values.size) :
    Rebound s (after (updateRef r f) s) := by
  refine ⟨fun _ _ => rfl, rfl, rfl, rfl, tabled.cells, fun pair hp => ?_, fun q m hm => ?_,
    tabled.objects, ⟨tabled.filed.ordered, tabled.filed.own, tabled.filed.once⟩⟩
  · change pair.2.index < (s.refs.modify r.index f).size
    rw [Array.size_modify]
    exact tabled.placed pair hp
  · rw [ref_updateRef] at hm
    split at hm
    · next same => exact there m (same.1 ▸ hm)
    · exact tabled.modules q m hm

def Rebinds (s t : Session) : Prop := Tabled s → Rebound s t

namespace Rebinds

theorem rebound {α : Type} {m : Analysis α} {Q : α → Prop} (h : Within .all Rebinds m Q)
    (tabled : Tabled s) : Rebound s (after m s) := by
  have steps : ∀ t, Relation.ReflTransGen Rebinds s t → Rebound s t := by
    intro t steps
    induction steps with
    | refl => exact .refl tabled
    | tail _ step ih => exact ih.trans (step ih.tabled)
  exact steps _ (h s (Realm.closed_all s)).1

theorem of_apart {α : Type} {m : Analysis α} {Q : α → Prop} (h : Apart m Q) :
    Within .all Rebinds m Q := fun s hs =>
  ⟨.single fun tabled => .of_aside (h.aside s) tabled, (h s hs).2⟩

theorem invalidate (r : RefId) : Within .all Rebinds (Session.invalidate r) fun _ => True :=
  Within.of_change fun _ _ tabled => rebound_updateRef tabled r fun m hm => tabled.modules r m hm

/-- A new cell, under a name that had another one or none. -/
theorem newRef {ref : ModuleRef} (s : Session) (there : ∀ m, ref.module = some m → m.index < s.values.size)
    (tabled : Tabled s) : Rebound s { s with refs := s.refs.push ref } := by
  refine ⟨fun _ _ => rfl, rfl, rfl, rfl, tabled.cells, fun pair hp => ?_, fun q m hm => ?_,
    tabled.objects, ⟨tabled.filed.ordered, tabled.filed.own, tabled.filed.once⟩⟩
  · simpa using Nat.lt_succ_of_lt (tabled.placed pair hp)
  · simp only [Session.ref, getD_push] at hm
    split at hm
    · exact there m hm
    · exact tabled.modules q m hm

private theorem nodup_insertPair {name : String} {r : RefId} {pairs : List (String × RefId)}
    (h : (pairs.map Prod.snd).Nodup) (fresh : r ∉ pairs.map Prod.snd) :
    ((NameMap.insertPair name r pairs).map Prod.snd).Nodup := by
  induction pairs with
  | nil => exact List.pairwise_singleton _ _
  | cons first rest ih =>
    obtain ⟨key, old⟩ := first
    rw [List.map_cons, List.nodup_cons] at h
    rw [List.map_cons, List.mem_cons, not_or] at fresh
    rw [NameMap.insertPair]
    split_ifs
    · exact List.nodup_cons.2 ⟨fresh.2, h.2⟩
    · refine List.nodup_cons.2 ⟨?_, List.nodup_cons.2 h⟩
      exact fun again => (List.mem_cons.1 again).elim fresh.1 fresh.2
    · rw [List.map_cons, List.nodup_cons]
      refine ⟨fun again => ?_, ih h.2 fresh.2⟩
      obtain ⟨pair, hp, same⟩ := List.mem_map.1 again
      rcases NameMap.mem_insertPair hp with rfl | hp
      · exact fresh.1 same
      · exact h.1 (List.mem_map.2 ⟨pair, hp, same⟩)

/-- A name gets a cell that no name has. -/
theorem insert {name : String} {r : RefId} (there : r.index < s.refs.size)
    (fresh : r ∉ s.modules.toList.map Prod.snd) (tabled : Tabled s) :
    Rebound s { s with modules := s.modules.insert name r } := by
  refine ⟨fun _ _ => rfl, rfl, rfl, rfl, nodup_insertPair tabled.cells fresh, fun pair hp => ?_,
    tabled.modules, tabled.objects, ⟨tabled.filed.ordered, tabled.filed.own, tabled.filed.once⟩⟩
  rcases NameMap.mem_insert hp with rfl | hp
  · exact there
  · exact tabled.placed pair hp

/-- Some names lose their cells. -/
theorem filter (keep : String × RefId → Bool) (tabled : Tabled s) :
    Rebound s { s with modules := ⟨s.modules.toList.filter keep⟩ } :=
  ⟨fun _ _ => rfl, rfl, rfl, rfl, (tabled.cells).sublist (List.filter_sublist.map _),
    fun pair hp => tabled.placed pair (List.mem_filter.1 hp).1, tabled.modules, tabled.objects,
    ⟨tabled.filed.ordered, tabled.filed.own, tabled.filed.once⟩⟩

end Rebinds

theorem total_invalidate (r : RefId) : Total (invalidate r) := .modify _

/-- Filling the table of modules again. -/
theorem rebound_resetModules (tabled : Tabled s) : Rebound s (after resetModules s) := by
  let kept := s.modules.toList.filter fun pair => s.isProjectModule pair.2
  let dropped := s.modules.toList.filter fun pair => !s.isProjectModule pair.2
  let invalid := after (dropped.forM fun pair => invalidate pair.2) s
  let fill : Analysis Unit := s.host.moduleNames.forM fun name => do
    if ((← get).peek? name).isNone then
      let r ← newRef {}
      modify fun s => { s with modules := s.modules.insert name r }
  have run : after resetModules s = after fill { invalid with modules := ⟨kept⟩ } := by
    have total : Total (dropped.forM fun pair => invalidate pair.2) :=
      .forM (fun pair : String × RefId => total_invalidate pair.2) _
    simp only [resetModules, after_read]
    exact after_seq total s
  have first : Rebound s invalid ∧ invalid.modules = s.modules :=
    after_forM (P := fun t => Rebound s t ∧ t.modules = s.modules) (fun pair : String × RefId => total_invalidate pair.2)
      (fun pair t ht => ⟨ht.1.trans (Rebinds.rebound (Rebinds.invalidate pair.2) ht.1.tabled), ht.2⟩)
      dropped ⟨.refl tabled, rfl⟩
  have second : Rebound invalid { invalid with modules := ⟨kept⟩ } := by
    have left := Rebinds.filter (fun pair => s.isProjectModule pair.2) first.1.tabled
    rwa [first.2] at left
  have filled : Within .all Rebinds fill fun _ => True := by
    refine Within.forM fun name _ => Within.read fun t _ => Within.ite ?_ (Within.pure trivial)
    refine Within.of_change fun t _ ht => ?_
    have pushed : Rebound t { t with refs := t.refs.push {} } := Rebinds.newRef t nofun ht
    refine pushed.trans (Rebinds.insert (by simp) (fun old => ?_) pushed.tabled)
    obtain ⟨pair, hp, same⟩ := List.mem_map.1 old
    have lt := ht.placed pair hp
    rw [same] at lt
    exact Nat.lt_irrefl _ lt
  rw [run]
  exact (first.1.trans second).trans (Rebinds.rebound filled second.tabled)

theorem rebound_removeModule (tabled : Tabled s) (e : EntryId) :
    Rebound s (after (removeModule (some e)) s) := by
  have besides : ∀ {m : Analysis Unit}, (∀ s, Aside s (after m s)) →
      Within .all Rebinds m fun _ => True := fun h =>
    Within.of_change fun s _ tabled => .of_aside (h s) tabled
  have forgets : ∀ name m, Within .all Rebinds (forgetName name m) fun _ => True := by
    intro name m
    refine Within.ite (Within.pure trivial) (Within.read fun s _ => ?_)
    split
    · exact Within.pure trivial
    · refine Within.read fun t _ => Within.ite (Within.bind (Q := fun _ => True) ?_
        fun _ _ => Rebinds.invalidate _) (Within.pure trivial)
      refine Within.read fun t _ => ?_
      split
      · exact Within.pure trivial
      · refine Within.ite (Within.pure trivial) (Within.bind (Q := fun _ => True) ?_
          fun _ _ => Within.pure trivial)
        exact Within.of_change fun t _ ht => Rebinds.filter (fun pair => pair.1 ≠ name) ht
  refine Rebinds.rebound (Q := fun _ => True) (Within.read fun t _ => Within.ite (Within.pure trivial) ?_)
    tabled
  refine Within.bind (besides fun s => ?_) fun _ _ => Within.bind (forgets _ _) fun _ _ =>
    Within.bind (besides fun _ => .of_same rfl rfl rfl) fun _ _ =>
      Within.bind (Rebinds.of_apart (Apart.retireEntry _ _)) fun _ _ =>
        Within.bind (Rebinds.of_apart (.of_clears (.clearModule _))) fun _ _ =>
          Within.bind (besides fun _ => .of_same rfl rfl rfl) fun _ _ => besides fun _ => .of_same rfl rfl rfl
  rw [forgetPath, after_modify]
  split
  · exact .of_same rfl rfl rfl
  · exact .refl s

end Session

end Typeflow
