import Typeflow.Proofs.CurrentCode
import Typeflow.Proofs.Engaged

/-! Every module that is there and has a tree can be run as a whole: its unit is never retired while the
tree is current. -/
namespace Typeflow.Session

/-- If the module is there and has a tree, it has a unit that may run. -/
def Headed (s : Session) (e : EntryId) : Prop :=
  (s.entry e).removed = false → (s.entry e).tree.isSome = true →
    ∃ u, (s.entry e).unit = some u ∧ s.isAlive u = true ∧ (s.unit u).entry = some e

namespace Headed

variable {s t : Session} {e : EntryId}

/-- The module has the same unit, and its units that may run are the same. -/
theorem of_kept (h : Headed s e) (removed : (t.entry e).removed = (s.entry e).removed)
    (tree : (t.entry e).tree = (s.entry e).tree) (head : (t.entry e).unit = (s.entry e).unit)
    (unit : ∀ u, s.isAlive u = true → (s.unit u).entry = some e → t.unit u = s.unit u) :
    Headed t e := by
  intro there current
  rw [removed] at there
  rw [tree] at current
  obtain ⟨u, hu, alive, entry⟩ := h there current
  have same := unit u alive entry
  refine ⟨u, head.trans hu, ?_, ?_⟩
  · rwa [isAlive, same]
  · rw [same, entry]

theorem of_eq (h : Headed s e) (units : t.units = s.units) (entries : t.entries = s.entries) :
    Headed t e := by
  have entry : t.entry e = s.entry e := by rw [Session.entry, entries]; rfl
  refine h.of_kept ?_ ?_ ?_ fun u _ _ => by rw [Session.unit, units]; rfl
  all_goals rw [entry]

theorem still {keep : NodeId → Prop} (h : Headed s e) (hs : Still keep s t) : Headed t e := by
  obtain ⟨n, entry⟩ := hs.entry e
  refine h.of_kept ?_ ?_ ?_ fun u _ _ => hs.unit u
  all_goals rw [entry]

/-- A unit that may run is among those that there are, so that a new one is another. -/
theorem ne_size {u : UnitId} (alive : s.isAlive u = true) : u.index ≠ s.units.size :=
  Nat.ne_of_lt (index_lt_of_isAlive alive)

theorem starts {v : ValueId} {f : EntryId} {body : Body} {scope : ScopeId} (h : Headed s e)
    (hs : Starts v f body scope s t) : Headed t e := by
  refine h.of_kept ?_ ?_ ?_ fun u alive _ => by rw [hs.unit, if_neg (ne_size alive)]
  all_goals
    rw [hs.entry]
    split <;> rfl

theorem defines {kind : ValueKind} {u : UnitId} {body : Body} (h : Headed s e)
    (hs : Defines kind u body s t) : Headed t e := by
  refine h.of_kept ?_ ?_ ?_ fun w _ _ => by rw [Session.unit, hs.units]; rfl
  all_goals
    rw [hs.entry]
    split <;> rfl

theorem step {L : Licence} (h : Headed s e) (hc : Coherent s) (hst : Step L s t) : Headed t e := by
  cases hst.shape hc with
  | still ht => exact h.still ht
  | starts v f body scope place r code hr _ enqueued => exact (h.starts hr).still enqueued
  | defines u body licensed ht => exact h.defines ht

theorem steps {L : Licence} (h : Headed s e) (hs : Sane s) (hl : L.Sound s) (hst : Steps L s t) :
    Headed t e :=
  hs.steps_induct (P := fun t => Headed t e) hl hst h fun _ _ sane _ next headed =>
    headed.step sane.coherent next

/-- The units of another module are retired. -/
theorem retires {f : EntryId} (h : Headed s e) (hg : Engaged s) (other : e ≠ f) (change : Entry → Entry)
    (units : ∀ entry, (change entry).units = entry.units) {detaching : Bool}
    (ht : Retires f detaching { s with entries := s.entries.modify f.index change } t) :
    Headed t e := by
  let r : Session := { s with entries := s.entries.modify f.index change }
  have changed : ∀ g, r.entry g = if g = f ∧ f.index < s.entries.size then change (s.entry g)
      else s.entry g := fun g => entry_modify s f g change
  have same : t.entry e = s.entry e :=
    ((ht.entry e).trans (if_neg fun hf => other hf.1)).trans
      ((changed e).trans (if_neg fun hf => other hf.1))
  have unitsOf : (r.entry f).units = (s.entry f).units := by
    rw [changed]
    split
    · exact units _
    · rfl
  refine h.of_kept ?_ ?_ ?_ fun u _ entry => ?_
  · rw [same]
  · rw [same]
  · rw [same]
  · have untouched : u ∉ (r.entry f).units := by
      intro mem
      rw [unitsOf] at mem
      exact other (Option.some.inj (entry.symm.trans (hg.tracked f u mem).2))
    exact (ht.unit u).trans (if_neg untouched)

theorem withHead {f : EntryId} (h : e ≠ f → Headed s e) (inRange : f.index < s.entries.size)
    (c : ScopeId) (body : Body) : Headed (s.withHead f c body) e := by
  have unit := Coherent.unit_withHead s f c body
  obtain ⟨more, entry, -⟩ := Coherent.entry_withHead s f c body e
  by_cases he : e = f
  · subst he
    intro there _
    have present : (s.entry e).removed = false := by
      rw [entry] at there
      exact there
    have made : (s.withHead e c body).unit ⟨s.units.size⟩ = ⟨some e, c, body, false⟩ := by
      rw [unit, if_pos rfl, present]
    refine ⟨⟨s.units.size⟩, ?_, ?_, ?_⟩
    · rw [entry, if_pos ⟨rfl, inRange⟩]
    · rw [isAlive, made]
      rfl
    · rw [made]
  · refine (h he).of_kept ?_ ?_ ?_ fun u alive _ => by rw [unit, if_neg (ne_size alive)]
    · rw [entry]
    · rw [entry]
    · rw [entry, if_neg fun hf => he hf.1]

theorem replaceTree {f : EntryId} (h : Headed s e) (hg : Engaged s) (inRange : f.index < s.entries.size)
    (tree : Option Tree) : Headed (after (replaceTree f tree) s) e := by
  have trees := tree_replaceTree s f tree inRange e
  obtain ⟨r, ht, ends⟩ := after_replaceTree f tree s
  let numbered : Session := { s with nextNode := (s.numbered tree).2 }
  have others : e ≠ f → Headed (r.withoutNodeValues (r.moduleScopeOf f)) e := by
    intro other
    have start : Headed numbered e := h.of_eq rfl rfl
    have engaged : Engaged numbered := hg.of_eq rfl rfl rfl
    exact (start.retires engaged other
      (fun entry => { entry with tree := (s.numbered tree).1, unit := none })
      (fun _ => rfl) ht).of_eq rfl rfl
  have range : f.index < (r.withoutNodeValues (r.moduleScopeOf f)).entries.size := by
    refine Nat.lt_of_lt_of_eq inRange ?_
    exact (ht.entries.trans (Array.size_modify ..)).symm
  cases hn : (s.numbered tree).1 with
  | none =>
    rw [hn] at trees
    by_cases he : e = f
    · rw [if_pos he] at trees
      intro _ current
      rw [trees] at current
      cases current
    · rw [ends, hn]
      exact others he
  | some new =>
    rw [ends, hn]
    exact withHead others range _ _

theorem removeModule {f : EntryId} (h : Headed s e) (hg : Engaged s) :
    Headed (after (removeModule (some f)) s) e := by
  rcases after_removeModule f s with ⟨-, ends⟩ | ⟨b, r, hb, ht, close⟩
  · rwa [ends]
  · have cleared : Still (fun _ => False) r (after (clearModule (s.entry f).module) r) := .clearModule _
    by_cases he : e = f
    · subst he
      intro there current
      by_cases inRange : e.index < s.entries.size
      · rw [removed_removeModule inRange] at there
        cases there
      · have size : (after (Session.removeModule (some e)) s).entries.size = s.entries.size := by
          rw [close.entries, cleared.entries, ht.entries, Session.withoutEntry, Array.size_modify,
            hb.entries]
        rw [entry_of_le (by omega)] at current
        cases current
    · have retired := (h.of_eq hb.units hb.entries).retires (hg.of_eq hb.values hb.units hb.entries) he
        (fun entry => { entry with removed := true, unit := none }) (fun _ => rfl) ht
      exact (retired.still cleared).of_eq close.units close.entries

theorem move {es : List Event} (h : Headed s e) (hg : Engaged s) (hs : Sane s) (hm : Move s es t) :
    Headed t e := by
  cases hm with
  | change foreign hst => exact h.steps hs (fun u body hd => (foreign.define u body hd).elim) hst
  | addEntry name path =>
    have look : (s.withEntry name path).entry e =
        if e.index = s.entries.size then { name, path, module := ⟨s.values.size⟩ } else s.entry e := by
      simp only [entry, Session.withEntry, getD_push]
    by_cases new : e.index = s.entries.size
    · intro _ current
      rw [look, if_pos new] at current
      cases current
    · rw [if_neg new] at look
      refine h.of_kept ?_ ?_ ?_ fun _ _ _ => rfl
      all_goals rw [look]
  | observe =>
    exact h.of_kept rfl rfl rfl fun u alive _ =>
      (unit_withUnit s.withLoose none _ _ u).trans (if_neg (ne_size alive))
  | takeNode => exact h.of_eq rfl rfl
  | replaceTree f tree inRange => exact h.replaceTree hg inRange tree
  | removeModule f => exact h.removeModule hg
  | release =>
    obtain ⟨liveUnits, watchers, metrics, ends⟩ := after_releaseRetired s
    rw [ends]
    exact h.of_eq rfl rfl
  | pass job queue hp dead => exact h.of_eq rfl rfl
  | turn job queue hp alive =>
    have begun : Headed (s.begun queue job.unit) e := h.of_eq rfl rfl
    have start := hs.begun hp
    exact begun.steps start (start.licence_sound alive) (steps_runBody job.unit _)
  | drop => exact h.of_eq rfl rfl

/-- The unit that runs a module is there as long as the module and its tree are. -/
theorem moves {es : List Event} (h : Headed s e) (hg : Engaged s) (hs : Sane s) (hm : Moves s es t) :
    Headed t e := by
  have both : Engaged t ∧ Headed t e :=
    hs.moves_induct (P := fun _ t => Engaged t ∧ Headed t e) hm ⟨hg, h⟩
      fun _ _ _ _ sane last ⟨engaged, headed⟩ =>
        ⟨engaged.move sane last, headed.move engaged sane last⟩
  exact both.2

end Headed

end Typeflow.Session
