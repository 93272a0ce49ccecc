import Typeflow.Proofs.Slots

/-! What a body that is run to its end leaves: every definition in it is made, and those just made have
their units unless their module holds them back. -/
namespace Typeflow.Session

/-- The module of a unit has the calls of a function of the name replaced, and its body not run. -/
def holdsBack (s : Session) (u : UnitId) (name : String) : Bool :=
  match (s.unit u).entry with
  | none => false
  | some e => (s.specialization? (s.entry e).module (s.qualifiedName u name)).any (!·.analyze)

/-- The definition has its unit, unless it was cut off. -/
def Provided (s : Session) (v : ValueId) : Prop :=
  ∀ code body, (s.form v).code? = some code → code.body = some body → code.unit ≠ none

theorem Provided.lasts {s t : Session} {v : ValueId} (h : Provided s v) (made : (s.form v).code? ≠ none)
    (hs : Lasts s t) : Provided t v := by
  intro d body hd hb
  obtain ⟨c, hc⟩ := Option.ne_none_iff_exists'.1 made
  obtain ⟨e, he, becomes⟩ := hs v c hc
  rw [hd] at he
  obtain rfl := Option.some.inj he
  obtain ⟨u, hu⟩ := Option.ne_none_iff_exists'.1 (h c body hc (becomes.body body hb))
  rw [becomes.unit body u hb hu]
  exact Option.some_ne_none u

theorem provided_enqueueBody (v : ValueId) (place : QueueEnd) (s : Session) :
    Provided (after (enqueueBody v place) s) v := by
  intro code body hc hb
  rcases after_enqueueBody v place s with ⟨cut, ends⟩ | ⟨old, b, ho, -, ⟨u, hu, ends⟩ | ⟨-, ends⟩⟩ <;>
    rw [ends] at hc
  · rw [cut code hc] at hb
    cases hb
  · have still : Still (fun _ => False) s (after (enqueue u place) s) := .enqueue u place
    rw [still.code, ho] at hc
    obtain rfl := Option.some.inj hc
    rw [hu]
    exact Option.some_ne_none u
  · have still : Still (fun _ => False) (s.withUnitFor v old b)
        (after (enqueue ⟨s.units.size⟩ place) (s.withUnitFor v old b)) := .enqueue _ place
    have look : (s.withUnitFor v old b).form v = _ :=
      form_withCode (s.withUnit old.entry old.scope b) v v fun code =>
        { code with unit := some ⟨s.units.size⟩ }
    rw [still.code, look, if_pos rfl, code?_mapCode] at hc
    obtain ⟨c, -, rfl⟩ := Option.map_eq_some_iff.1 hc
    exact Option.some_ne_none _

def Licence.keeping (L : Licence) : Licence := ⟨L.keep, fun _ _ => False⟩

theorem Step.of_keeping {L : Licence} {s t : Session} (h : Step L.keeping s t) : Step L s t := by
  cases h with
  | bookkeep h => exact .bookkeep h
  | makeValue value h free => exact .makeValue value h free
  | amendValue v value h rest => exact .amendValue v value h rest
  | resolve cls on => exact .resolve cls on
  | attributeOf v name => exact .attributeOf v name
  | newVariable cap => exact .newVariable cap
  | nameIn scope name => exact .nameIn scope name
  | addTypes x values => exact .addTypes x values
  | addReader x reader => exact .addReader x reader
  | addAssignment x place => exact .addAssignment x place
  | addReference x place => exact .addReference x place
  | keepValue scope node values h => exact .keepValue scope node values h
  | enqueue u place => exact .enqueue u place
  | clearModule m => exact .clearModule m
  | enqueueBody v place => exact .enqueueBody v place
  | enqueueEntry e => exact .enqueueEntry e
  | defineFunction u body name params h kind => exact h.elim
  | defineClass u body name h kind => exact h.elim

theorem Steps.of_keeping {L : Licence} {s t : Session} (h : Steps L.keeping s t) : Steps L s t :=
  h.lift id fun _ _ hst => hst.of_keeping

/-- What is kept for a node that evaluation keeps nothing for stays the same. -/
theorem Ready.slot_same {L : Licence} {s t : Session} (h : Ready L s) (hst : Steps L s t) {c : ScopeId}
    {n : NodeId} (apart : ¬ L.keep n) {values : ValueSet} (kept : s.slot c n = some values) :
    t.slot c n = some values := by
  refine h.induct (P := fun t => t.slot c n = some values) hst kept fun r t ready hst kept => ?_
  cases hst.shape ready.sane.coherent with
  | still ht => rwa [slot, ht.nodes c n apart]
  | starts v e body scope place q code hq _ enqueued =>
    rw [slot, enqueued.nodes c n apart, ← slot, slot_of_scopes hq.scopes]
    exact kept
  | defines u body licensed ht =>
    obtain ⟨hu, -⟩ := ready.sound u body licensed
    rw [slot, ht.nodes (ready.sane.coherent.unitScope u hu), if_neg, ← slot, kept]
    rintro ⟨rfl, rfl⟩
    rw [slot, ht.free] at kept
    cases kept

/-- What is kept for a node that evaluation keeps nothing for stays. -/
theorem Ready.slot_kept {L : Licence} {s t : Session} (h : Ready L s) (hst : Steps L s t) {c : ScopeId}
    {n : NodeId} (apart : ¬ L.keep n) (kept : s.slot c n ≠ none) : t.slot c n ≠ none := by
  obtain ⟨values, there⟩ := Option.ne_none_iff_exists'.1 kept
  rw [h.slot_same hst apart there]
  exact Option.some_ne_none values

/-- Definitions stand and modules are there as before. -/
structure Carries (s t : Session) : Prop where
  stands : ∀ e body v, s.Stands e body v → t.Stands e body v
  removed : ∀ e, (t.entry e).removed = (s.entry e).removed
  module : ∀ e, (t.entry e).module = (s.entry e).module

namespace Carries

variable {s t r : Session}

theorem refl (s : Session) : Carries s s := ⟨fun _ _ _ h => h, fun _ => rfl, fun _ => rfl⟩

theorem trans (h : Carries s t) (g : Carries t r) : Carries s r where
  stands e body v hv := g.stands e body v (h.stands e body v hv)
  removed e := (g.removed e).trans (h.removed e)
  module e := (g.module e).trans (h.module e)

theorem of_eq (values : t.values = s.values) (entries : t.entries = s.entries) : Carries s t := by
  refine ⟨fun e body v hv => ?_, fun e => by rw [entry, entries]; rfl, fun e => by rw [entry, entries]; rfl⟩
  rw [Stands, form, value, values]
  exact hv

theorem of_still {keep : NodeId → Prop} (h : Still keep s t) : Carries s t := by
  refine ⟨fun _ _ _ hv => hv.still h, h.removed, fun e => ?_⟩
  obtain ⟨n, hn⟩ := h.entry e
  rw [hn]

theorem of_step {L : Licence} (hc : Coherent s) (h : Step L s t) : Carries s t := by
  cases h.shape hc with
  | still ht => exact of_still ht
  | starts v e body scope place r code hr _ enqueued =>
    refine .trans ⟨fun _ _ _ hv => hv.starts code hr, fun f => ?_, fun f => ?_⟩ (of_still enqueued)
    all_goals
      rw [hr.entry]
      split <;> rfl
  | defines u body licensed ht =>
    refine ⟨fun _ _ _ hv => hv.defines ht, fun e => ?_, fun e => ?_⟩
    all_goals
      rw [ht.entry]
      split <;> rfl

end Carries

theorem Ready.carries {L : Licence} {s t : Session} (h : Ready L s) (hst : Steps L s t) : Carries s t :=
  h.induct hst (.refl s) fun _ _ ready next carries => carries.trans (.of_step ready.sane.coherent next)

/-- Between two sessions a definition is passed whose body its module holds back. -/
def HeldBack (L : Licence) (u : UnitId) (functions : List (String × Body)) (s t : Session)
    (v : ValueId) : Prop :=
  ∃ name body e r, (name, body) ∈ functions ∧ Steps L s r ∧ Steps L r t ∧ r.Stands e body v ∧
    r.holdsBack u name = true

/-- All bodies have definitions in the end. What was defined on the way has its unit or was held back. -/
structure Settles (L : Licence) (u : UnitId) (bodies : List Body) (functions : List (String × Body))
    (s t : Session) : Prop where
  steps : Steps L s t
  filled : ∀ b ∈ bodies, t.slot (s.unit u).scope b.node.id ≠ none
  provided : ∀ v, (s.form v).code? = none → (t.form v).code? ≠ none →
    Provided t v ∨ HeldBack L u functions s t v

namespace Settles

variable {L : Licence} {u : UnitId} {A B : List Body} {F G : List (String × Body)} {s t r : Session}

theorem of_keeping (h : Ready L s) (hst : Steps L.keeping s t) : Settles L u [] [] s t where
  steps := hst.of_keeping
  filled _ hb := nomatch hb
  provided _ unmade made := absurd (hst.no_code h.sane (fun _ _ no => no) unmade) made

theorem trans (ready : Ready L s) (hu : u.index < s.units.size) (apart : ∀ b ∈ A, ¬ L.keep b.node.id)
    (h : Settles L u A F s r) (g : Settles L u B G r t) : Settles L u (A ++ B) (F ++ G) s t where
  steps := h.steps.trans g.steps
  filled b hb := by
    rcases List.mem_append.1 hb with hb | hb
    · exact (ready.steps h.steps).slot_kept g.steps (apart b hb) (h.filled b hb)
    · rw [← (Ages.of_steps ready.sane ready.sound h.steps).scope hu]
      exact g.filled b hb
  provided v unmade made := by
    have next := ready.steps h.steps
    cases hr : (r.form v).code? with
    | none =>
      rcases g.provided v hr made with has | ⟨name, body, e, q, mem, before, later, held⟩
      · exact .inl has
      · exact .inr ⟨name, body, e, q, List.mem_append_right _ mem, h.steps.trans before, later, held⟩
    | some code =>
      have some : (r.form v).code? ≠ none := by rw [hr]; exact Option.some_ne_none code
      rcases h.provided v unmade some with has | ⟨name, body, e, q, mem, before, later, held⟩
      · exact .inl (has.lasts some (.of_steps next.sane next.sound g.steps))
      · exact .inr ⟨name, body, e, q, List.mem_append_left _ mem, before, later.trans g.steps, held⟩

end Settles

def Settling (L : Licence) (u : UnitId) (bodies : List Body) (functions : List (String × Body))
    {α : Type} (m : Analysis α) : Prop :=
  ∀ s a t, Ready L s → u.index < s.units.size → m s = .ok a t → Settles L u bodies functions s t

namespace Settling

variable {L : Licence} {u : UnitId} {A B : List Body} {F G : List (String × Body)} {α β : Type}

theorem of_stepwise {m : Analysis α} (h : Stepwise L.keeping m) : Settling L u [] [] m := by
  intro s a t ready hu ends
  have steps := h s
  rw [after_of_ok ends] at steps
  exact .of_keeping ready steps

theorem bind {m : Analysis α} {f : α → Analysis β} (apart : ∀ b ∈ A, ¬ L.keep b.node.id)
    (hm : Settling L u A F m) (hf : ∀ a, Settling L u B G (f a)) :
    Settling L u (A ++ B) (F ++ G) (m >>= f) := by
  intro s b t ready hu ends
  obtain ⟨a, r, first, second⟩ := bind_eq_ok ends
  have settled := hm s a r ready hu first
  have more := (Ages.of_steps ready.sane ready.sound settled.steps).units
  exact settled.trans ready hu apart
    (hf a r b t (ready.steps settled.steps) (Nat.lt_of_lt_of_le hu more) second)

/-- What is evaluated before settles nothing. -/
theorem afterwards {m : Analysis α} {f : α → Analysis β} (hm : Stepwise L.keeping m)
    (hf : ∀ a, Settling L u A F (f a)) : Settling L u A F (m >>= f) :=
  bind (A := []) (F := []) (fun _ hb => nomatch hb) (of_stepwise hm) hf

end Settling

end Typeflow.Session
