import Typeflow.Proofs.Dependence.Life
import Typeflow.Proofs.Engaged

/-! A unit that a definition has got waits until it is run or a run is cancelled. -/
namespace Typeflow.Session

/-- The unit was run, or it was dropped when a run was to stop. -/
def Served (es : List Event) (u : UnitId) : Prop :=
  (∃ turn, .ran turn ∈ es ∧ turn.unit = u) ∨ ∃ units, .dropped units ∈ es ∧ u ∈ units

theorem Served.append {es fs : List Event} {u : UnitId} (h : Served es u) : Served (es ++ fs) u := by
  rcases h with ⟨turn, ran, same⟩ | ⟨units, dropped, mem⟩
  · exact .inl ⟨turn, List.mem_append_left _ ran, same⟩
  · exact .inr ⟨units, List.mem_append_left _ dropped, mem⟩

/-- The units of definitions that may run wait, but for those that were served. -/
def Attends (served : UnitId → Prop) (s : Session) : Prop :=
  ∀ v e body c u, (s.form v).code? = some ⟨some e, some body, c, some u⟩ → s.isAlive u = true →
    served u ∨ s.queue.holds (s.job u) = true

namespace Attends

variable {served : UnitId → Prop} {s t : Session}

theorem still {keep : NodeId → Prop} (h : Attends served s) (hs : Still keep s t) :
    Attends served t := by
  intro v e body c u hc ha
  rw [hs.code] at hc
  rw [hs.isAlive] at ha
  rw [hs.job]
  refine (h v e body c u hc ha).imp id fun hq => ?_
  obtain ⟨other, ho, same⟩ := WorkQueue.holds_iff.1 hq
  exact WorkQueue.holds_iff.2 ⟨other, hs.kept other ho, same⟩

/-- The unit that a definition gets is queued. -/
theorem starts {v : ValueId} {e : EntryId} {body : Body} {scope : ScopeId} {place : QueueEnd}
    (h : Attends served s) (he : Engaged s) (hs : Starts v e body scope s t) :
    Attends served (after (enqueue ⟨s.units.size⟩ place) t) := by
  have queued := queues_enqueue ⟨s.units.size⟩ place t
  have still : Still (fun _ => False) t (after (enqueue ⟨s.units.size⟩ place) t) := .of_queues queued
  intro w f b c u hc ha
  rw [still.code, hs.code] at hc
  rw [still.isAlive] at ha
  rw [still.job]
  split at hc
  · cases hc
    exact .inr (queued.held _ (List.mem_singleton_self _) ha)
  · have unit : t.unit u = s.unit u :=
      (hs.unit u).trans (if_neg (Nat.ne_of_lt (he.unit w f b c u hc).1))
    have alive : s.isAlive u = true := by rwa [isAlive, unit] at ha
    have job : t.job u = s.job u := by rw [Session.job, unit]; rfl
    refine (h w f b c u hc alive).imp id fun hq => ?_
    rw [job]
    rw [← hs.queue] at hq
    exact queued.holds hq

theorem defines {kind : ValueKind} {u : UnitId} {body : Body} (h : Attends served s)
    (hs : Defines kind u body s t) : Attends served t := by
  intro v e b c w hc ha
  have unit : t.unit w = s.unit w := by rw [Session.unit, hs.units]; rfl
  have alive : s.isAlive w = true := by rwa [isAlive, unit] at ha
  have job : t.job w = s.job w := by rw [Session.job, unit]; rfl
  by_cases hv : v.index = s.values.size
  · obtain rfl : v = ⟨s.values.size⟩ := ValueId.index_inj.1 hv
    rw [hs.code] at hc
    have none : Option.none = some w := congrArg Code.unit (Option.some.inj hc)
    cases none
  · rw [hs.form v hv] at hc
    rw [hs.queue, job]
    exact h v e b c w hc alive

theorem step {L : Licence} (h : Attends served s) (hc : Coherent s) (he : Engaged s)
    (hst : Step L s t) : Attends served t := by
  cases hst.shape hc with
  | still ht => exact h.still ht
  | starts v e body scope place r code hr queued _ =>
    rw [queued]
    exact h.starts he hr
  | defines u body licensed ht => exact h.defines ht

theorem steps {L : Licence} (h : Attends served s) (hs : Sane s) (hl : L.Sound s) (he : Engaged s)
    (hst : Steps L s t) : Attends served t := by
  have both : Engaged t ∧ Attends served t :=
    hs.steps_induct (P := fun t => Engaged t ∧ Attends served t) hl hst ⟨he, h⟩
      fun _ _ sane _ next ⟨engaged, attends⟩ =>
        ⟨engaged.step sane.coherent next, attends.step sane.coherent engaged next⟩
  exact both.2

/-- Apart from evaluation, a move makes no units for definitions, and those that wait go on waiting. -/
theorem sheds {es : List Event} (h : Attends served s) (hs : Sane s) (he : Engaged s) (hm : Move s es t)
    (sheds : Sheds s t) (quiet : es = []) : Attends served t := by
  subst quiet
  intro v e body c u hc ha
  have old := sheds.code_of_unit hc rfl
  have minds := Minds.of_move hs (he.unit v e body c u old).1 hm (fun _ ran => by cases ran)
    fun _ dropped => by cases dropped
  exact (h v e body c u old (minds.alive ha)).imp id (minds.waits ha)

/-- In a move the units of definitions go on waiting, or they are served. -/
theorem move {es fs : List Event} (h : Attends (Served es) s) (hs : Sane s) (he : Engaged s)
    (hm : Move s fs t) : Attends (Served (es ++ fs)) t := by
  have more : Attends (Served (es ++ fs)) s := fun v e body c u hc ha =>
    (h v e body c u hc ha).imp Served.append id
  rcases hm.events with rfl | ⟨event, rfl⟩
  · rcases Sheds.of_move hm with sheds | ⟨L, foreign, hst, -⟩ | ⟨job, queue, -, -, none, -⟩
    · exact more.sheds hs he hm sheds rfl
    · exact more.steps hs (fun u body hd => (foreign.define u body hd).elim) he hst
    · cases none
  · cases hm with
    | turn job queue hp alive =>
      have start := hs.begun hp
      have begun : Attends (Served (es ++ [.ran (turnOf job.unit (s.begun queue job.unit))]))
          (s.begun queue job.unit) := by
        intro v e body c u hc ha
        by_cases same : job.unit = u
        · exact .inl (.inl ⟨_, List.mem_append_right _ (List.mem_singleton_self _), same⟩)
        · refine (more v e body c u hc ha).imp id fun hq => ?_
          exact (Minds.of_pop hs.coherent hp fun _ => same).waits ha hq
      have engaged : Engaged (s.begun queue job.unit) := he.of_eq rfl rfl rfl
      exact begun.steps start (start.licence_sound alive) engaged (steps_runBody job.unit _)
    | drop =>
      intro v e body c u hc ha
      rcases more v e body c u hc ha with served | hq
      · exact .inl served
      · have mem := hs.coherent.mem_of_holds ha hq
        refine .inl (.inr ⟨_, List.mem_append_right _ (List.mem_singleton_self _), ?_⟩)
        exact List.mem_map.2 ⟨_, mem, rfl⟩

theorem moves {es : List Event} (h : Attends (Served []) s) (hs : Sane s) (he : Engaged s)
    (hm : Moves s es t) : Attends (Served es) t := by
  have both : Engaged t ∧ Attends (Served es) t :=
    hs.moves_induct (P := fun es t => Engaged t ∧ Attends (Served es) t) hm ⟨he, h⟩
      fun _ _ _ _ sane last ⟨engaged, attends⟩ =>
        ⟨engaged.move sane last, attends.move sane engaged last⟩
  exact both.2

end Attends

end Typeflow.Session
