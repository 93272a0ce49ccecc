import Typeflow.Proofs.Age

/-! Functions and classes stay what they are all their life: they get their unit at most once, and those
whose tree goes away are cut off for good. -/
namespace Typeflow

/-- What may become of the code of a definition: it gets its unit, or is cut off. -/
structure Code.Becomes (c d : Code) : Prop where
  entry : d.entry = c.entry
  scope : d.scope = c.scope
  body : ∀ b, d.body = some b → c.body = some b
  unit : ∀ b u, d.body = some b → c.unit = some u → d.unit = some u

theorem Code.Becomes.refl (c : Code) : c.Becomes c := ⟨rfl, rfl, fun _ h => h, fun _ _ _ h => h⟩

theorem Code.Becomes.trans {c d e : Code} (h : c.Becomes d) (g : d.Becomes e) : c.Becomes e where
  entry := g.entry.trans h.entry
  scope := g.scope.trans h.scope
  body b hb := h.body b (g.body b hb)
  unit b u hb hu := g.unit b u hb (h.unit b u (g.body b hb) hu)

private theorem Form.code?_default : (default : Value).form.code? = none := rfl

namespace Session

theorem index_lt_of_code? {s : Session} {v : ValueId} {code : Code} (h : (s.form v).code? = some code) :
    v.index < s.values.size :=
  index_lt_of_form fun hf => by rw [hf, Form.code?_default] at h; cases h

/-- No definition has been made or got its unit, but some may have been cut off. -/
structure Sheds (s t : Session) : Prop where
  code : ∀ v, (t.form v).code? = (s.form v).code? ∨ (t.form v).code? = (s.form v).code?.map cut
  kind : ∀ v, v.index < s.values.size → (t.form v).kind = (s.form v).kind

namespace Sheds

variable {s t r : Session}

theorem refl (s : Session) : Sheds s s := ⟨fun _ => .inl rfl, fun _ _ => rfl⟩

theorem trans (h : Sheds s t) (g : Sheds t r) (values : s.values.size ≤ t.values.size) : Sheds s r where
  code v := by
    have twice : ∀ code? : Option Code, (code?.map cut).map cut = code?.map cut := by
      intro code?
      cases code? <;> rfl
    rcases g.code v with hg | hg <;> rcases h.code v with hh | hh <;> rw [hg, hh]
    · exact .inl rfl
    · exact .inr rfl
    · exact .inr rfl
    · exact .inr (twice _)
  kind v hv := (g.kind v (Nat.lt_of_lt_of_le hv values)).trans (h.kind v hv)

/-- A definition with a unit had it before. -/
theorem code_of_unit (h : Sheds s t) {v : ValueId} {code : Code} {u : UnitId}
    (hc : (t.form v).code? = some code) (hu : code.unit = some u) : (s.form v).code? = some code := by
  rcases h.code v with same | cuts
  · exact same.symm.trans hc
  · rw [cuts] at hc
    obtain ⟨old, -, rfl⟩ := Option.map_eq_some_iff.1 hc
    cases hu

theorem of_values (values : t.values = s.values) : Sheds s t :=
  ⟨fun _ => .inl (by rw [form, value, values]; rfl), fun _ _ => by rw [form, value, values]; rfl⟩

theorem of_still {keep : NodeId → Prop} (h : Still keep s t) : Sheds s t :=
  ⟨fun v => .inl (h.code v), h.kind⟩

theorem of_retires {e : EntryId} {detaching : Bool} (h : Retires e detaching s t) : Sheds s t := by
  refine ⟨fun v => ?_, fun v _ => ?_⟩ <;> rw [h.form] <;> split
  · exact .inr (code?_mapCode _ _)
  · exact .inl rfl
  · exact kind_mapCode _ _
  · rfl

theorem withEntry (name path : String) : Sheds s (s.withEntry name path) := by
  have form : ∀ v, (s.withEntry name path).form v =
      if v.index = s.values.size then .module ⟨⟨s.entries.size⟩, ⟨s.scopes.size⟩⟩ else s.form v := by
    intro v
    simp only [Session.form, Session.value, Session.withEntry, getD_push]
    split <;> rfl
  refine ⟨fun v => .inl ?_, fun v hv => ?_⟩ <;> rw [form]
  · split
    · next hv => rw [form_of_le (Nat.le_of_eq hv.symm)]; rfl
    · rfl
  · rw [if_neg (Nat.ne_of_lt hv)]

theorem replaceTree (e : EntryId) (tree : Option Tree) : Sheds s (after (replaceTree e tree) s) := by
  obtain ⟨r, ht, ends⟩ := after_replaceTree e tree s
  have changed : Sheds s (s.withTree e (s.numbered tree).1 (s.numbered tree).2) := of_values rfl
  have retired : Sheds s r := changed.trans (of_retires ht) (Nat.le_refl _)
  rw [ends]
  split <;> exact retired.trans (of_values rfl) (Nat.le_of_eq ht.values.symm)

theorem removeModule (e : EntryId) : Sheds s (after (removeModule (some e)) s) := by
  rcases after_removeModule e s with ⟨-, ends⟩ | ⟨b, r, hb, ht, close⟩
  · rw [ends]
    exact refl s
  · have books : Sheds s (b.withoutEntry e) := of_values hb.values
    have size : s.values.size = (b.withoutEntry e).values.size := by rw [← hb.values]; rfl
    have retired := books.trans (of_retires ht) (Nat.le_of_eq size)
    have same : s.values.size = r.values.size := size.trans ht.values.symm
    have closed : Still (fun _ => False) r (after (Session.removeModule (some e)) s) :=
      (Still.clearModule _).trans (.of_bookkeeping close)
    exact retired.trans (of_still closed) (Nat.le_of_eq same)

/-- Apart from evaluation, no move makes a definition or a unit for one. -/
theorem of_move {es : List Event} (h : Move s es t) :
    Sheds s t ∨ (∃ L : Licence, L.Foreign s ∧ Steps L s t ∧ es = []) ∨
      ∃ job queue, s.queue.pop? = some (job, queue) ∧ s.isAlive job.unit = true ∧
        es = [.ran (turnOf job.unit (s.begun queue job.unit))] ∧
        t = after (runBody job.unit) (s.begun queue job.unit) := by
  cases h with
  | change foreign hst => exact .inr (.inl ⟨_, foreign, hst, rfl⟩)
  | addEntry name path => exact .inl (withEntry name path)
  | observe => exact .inl (of_values rfl)
  | takeNode => exact .inl (of_values rfl)
  | replaceTree e tree inRange => exact .inl (replaceTree e tree)
  | removeModule e => exact .inl (removeModule e)
  | release =>
    obtain ⟨liveUnits, watchers, metrics, ends⟩ := after_releaseRetired s
    rw [ends]
    exact .inl (of_values rfl)
  | pass job queue hp dead => exact .inl (of_values rfl)
  | turn job queue hp alive => exact .inr (.inr ⟨job, queue, hp, alive, rfl, rfl⟩)
  | drop => exact .inl (of_values rfl)

end Sheds

/-- Every definition is still there and has become what it may. -/
def Lasts (s t : Session) : Prop :=
  ∀ v c, (s.form v).code? = some c → ∃ d, (t.form v).code? = some d ∧ c.Becomes d

namespace Lasts

variable {s t r : Session}

theorem refl (s : Session) : Lasts s s := fun _ c h => ⟨c, h, .refl c⟩

theorem trans (h : Lasts s t) (g : Lasts t r) : Lasts s r := by
  intro v c hc
  obtain ⟨d, hd, first⟩ := h v c hc
  obtain ⟨e, he, second⟩ := g v d hd
  exact ⟨e, he, first.trans second⟩

theorem of_sheds (h : Sheds s t) : Lasts s t := by
  intro v c hc
  rcases h.code v with same | cuts
  · exact ⟨c, same.trans hc, .refl c⟩
  · refine ⟨cut c, by rw [cuts, hc]; rfl, rfl, rfl, fun b hb => ?_, fun b u hb => ?_⟩
    · cases hb
    · cases hb

theorem of_starts {v : ValueId} {e : EntryId} {body : Body} {scope : ScopeId}
    (code : (s.form v).code? = some ⟨some e, some body, scope, none⟩)
    (h : Starts v e body scope s t) : Lasts s t := by
  intro w c hc
  rw [h.code]
  split
  · next hw =>
    rw [hw, code] at hc
    obtain rfl := Option.some.inj hc
    exact ⟨_, rfl, ⟨rfl, rfl, fun _ hb => hb, fun _ _ _ hu => by cases hu⟩⟩
  · exact ⟨c, hc, .refl c⟩

theorem of_defines {kind : ValueKind} {u : UnitId} {body : Body} (h : Defines kind u body s t) :
    Lasts s t := by
  intro v c hc
  exact ⟨c, by rw [h.form v (Nat.ne_of_lt (index_lt_of_code? hc)), hc], .refl c⟩

theorem of_step {L : Licence} (hc : Coherent s) (h : Step L s t) : Lasts s t := by
  cases h.shape hc with
  | still ht => exact of_sheds (.of_still ht)
  | starts v e body scope place r code hr _ enqueued =>
    exact (of_starts code hr).trans (of_sheds (.of_still enqueued))
  | defines u body licensed ht => exact of_defines ht

theorem of_steps {L : Licence} (hs : Sane s) (hl : L.Sound s) (h : Steps L s t) : Lasts s t :=
  hs.steps_induct hl h (refl s) fun _ _ sane _ next lasts => lasts.trans (of_step sane.coherent next)

theorem of_move {es : List Event} (hs : Sane s) (h : Move s es t) : Lasts s t := by
  rcases Sheds.of_move h with sheds | ⟨L, foreign, hst, -⟩ | ⟨job, queue, hp, alive, -, rfl⟩
  · exact of_sheds sheds
  · exact of_steps hs (fun u body hd => (foreign.define u body hd).elim) hst
  · have start := hs.begun hp
    exact (of_sheds (.of_values rfl) : Lasts s (s.begun queue job.unit)).trans
      (of_steps start (start.licence_sound alive) (steps_runBody job.unit _))

theorem of_moves {es : List Event} (hs : Sane s) (h : Moves s es t) : Lasts s t :=
  hs.moves_induct (P := fun _ t => Lasts s t) h (refl s) fun _ _ _ _ sane last lasts =>
    lasts.trans (of_move sane last)

end Lasts

/-- Where nothing may be defined, no definition comes to be. -/
theorem Steps.no_code {L : Licence} {s t : Session} (hs : Sane s) (define : ∀ u body, ¬ L.define u body)
    (h : Steps L s t) {v : ValueId} (unmade : (s.form v).code? = none) : (t.form v).code? = none := by
  have sound : L.Sound s := fun u body hd => (define u body hd).elim
  refine hs.steps_induct (P := fun t => (t.form v).code? = none) sound h unmade ?_
  intro t r sane _ hst free
  cases hst.shape sane.coherent with
  | still ht => exact (ht.code v).trans free
  | starts w e body scope place q code hq _ enqueued =>
    have other : v ≠ w := by
      rintro rfl
      rw [free] at code
      cases code
    rw [enqueued.code, hq.code, if_neg other]
    exact free
  | defines u body licensed ht => exact (define u body licensed).elim

/-- A definition that has come to be in the life of a session was made in a turn. -/
theorem Moves.born {s t : Session} {es : List Event} (hs : Sane s) (hm : Moves s es t) {v : ValueId}
    (unmade : (s.form v).code? = none) (made : (t.form v).code? ≠ none) :
    ∃ turn, .ran turn ∈ es ∧ (turn.before.form v).code? = none ∧ (turn.after.form v).code? ≠ none := by
  induction hm with
  | refl => exact absurd unmade made
  | @tail es fs r q h last ih =>
    cases hr : (r.form v).code? with
    | some code =>
      obtain ⟨turn, ran, rest⟩ := ih (by rw [hr]; exact Option.some_ne_none code)
      exact ⟨turn, List.mem_append_left _ ran, rest⟩
    | none =>
      rcases Sheds.of_move last with sheds | ⟨L, foreign, hst, -⟩ | ⟨job, queue, hp, -, rfl, rfl⟩
      · refine absurd ?_ made
        rcases sheds.code v with same | cuts
        · rw [same, hr]
        · rw [cuts, hr]
          rfl
      · exact absurd (Steps.no_code (hs.moves h) foreign.define hst hr) made
      · exact ⟨_, List.mem_append_right _ (List.mem_singleton_self _), hr, made⟩

end Session

end Typeflow
