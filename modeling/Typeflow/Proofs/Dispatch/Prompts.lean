import Typeflow.Proofs.Dispatch.Plan
import Typeflow.Proofs.Lookup.Deepen

/-! What a question leads to. It comes to an end just if its questions do not lead on for good. -/
namespace Typeflow.Session

/-- Something that is wanted of a value at some moment. -/
structure Posed where
  session : Session
  value : ValueId
  want : Want

namespace Posed

def plan? (p : Posed) (site : Site) : Option Plan := p.session.plan? site p.value p.want

def MetBy (p : Posed) (depth : Nat) (site : Site) : Prop := Returns (meet depth site p.want p.value) p.session

end Posed

/-- What is wanted first leads to the second one, which is come to when everything before it has ended. -/
inductive Prompts (site : Site) (p : Posed) : Posed → Prop
  | source {plan : Plan} {w : ValueId} {q : Question} (planned : p.plan? site = some plan)
      (finds : plan.source = .found w q) : Prompts site p ⟨plan.start, w, .answer q⟩
  | each {plan : Plan} {before rest : List ValueId} {w : ValueId} {t r : Session} {depth : Nat}
      (planned : p.plan? site = some plan)
      (found : plan.source.values depth site plan.start = .ok (before ++ w :: rest) t)
      (done : Leaves (ValueSet.joinM before (meet depth site plan.want)) t r) : Prompts site p ⟨r, w, plan.want⟩

/-- Whatever this leads to has a plan, or is the lookup of a member and comes to an end. -/
def Posed.IsPlanned (p : Posed) (site : Site) : Prop :=
  ∀ o, Relation.ReflTransGen (Prompts site) p o → o.plan? site = none →
    (∃ name, o.want = .answer (.member name)) ∧ ∃ depth, o.MetBy depth site

/-- Nothing leads on for good, and everything is planned. -/
structure Posed.Closes (p : Posed) (site : Site) : Prop where
  acc : Acc (fun o p => Prompts site p o) p
  planned : p.IsPlanned site

section Depth

variable {depth more : Nat} (le : depth ≤ more) (site : Site)
include le

theorem deepens_meet (want : Want) (v : ValueId) : Deepens (meet depth site want v) (meet more site want v) := by
  have deeper : ∀ v q site, Deepens (answerWithin depth v q site) (answerWithin more v q site) :=
    fun v q site => .answerWithin le v q site
  cases want with
  | answer q => exact deeper v q site
  | next => exact .read fun _ => .ite (deeper _ _ _) (.callMember deeper _ _ _ _)

theorem deepens_values (source : Source) : Deepens (source.values depth site) (source.values more site) := by
  cases source with
  | these values => exact .refl _
  | found v q => exact .bind (.answerWithin le v q site) fun _ => .refl _

theorem deepens_joinM (want : Want) (values : List ValueId) :
    Deepens (ValueSet.joinM values (meet depth site want)) (ValueSet.joinM values (meet more site want)) :=
  .joinM (deepens_meet le site want) values

end Depth

/-- A plan prompts the question that finds its values, and what is wanted of each of them. -/
private theorem Prompts.of_plan {site : Site} {p o : Posed} {plan : Plan} (planned : p.plan? site = some plan)
    (prompts : Prompts site p o) :
    (∃ w q, plan.source = .found w q ∧ o = ⟨plan.start, w, .answer q⟩) ∨
      ∃ depth before w rest t r, plan.source.values depth site plan.start = .ok (before ++ w :: rest) t ∧
        Leaves (ValueSet.joinM before (meet depth site plan.want)) t r ∧ o = ⟨r, w, plan.want⟩ := by
  cases prompts with
  | source again finds =>
    cases planned.symm.trans again
    exact .inl ⟨_, _, finds, rfl⟩
  | each again found done =>
    cases planned.symm.trans again
    exact .inr ⟨_, _, _, _, _, _, found, done, rfl⟩

section Descent

variable {site : Site} {depth : Nat} {p o : Posed} {plan : Plan}

/-- What is prompted on the way to an end comes to an end itself. -/
private theorem metBy_of_prompts (planned : p.plan? site = some plan)
    (carried : Returns (plan.carryOut depth site) plan.start) (prompts : Prompts site p o) : o.MetBy depth site := by
  obtain ⟨items, t, found, u, asked⟩ := returns_bind_iff.1 carried
  obtain ⟨w, q, finds, rfl⟩ | ⟨other, before, w, rest, r, k, finds, done, rfl⟩ := prompts.of_plan planned
  · rw [finds, Source.values] at found
    obtain ⟨values, r, run, -⟩ := bind_eq_ok found
    exact ⟨r, values, run⟩
  · -- Both depths come to the same within the larger one.
    have most := ok_of_deepens (deepens_values (Nat.le_max_left depth other) site _) found
    have same := ok_of_deepens (deepens_values (Nat.le_max_right depth other) site _) finds
    rw [most] at same
    cases same
    obtain ⟨q, first, left⟩ := leaves_joinM_append.1 asked
    have there : q = k := (first.deepen (deepens_joinM (Nat.le_max_left depth other) site _ _)).unique
      (done.deepen (deepens_joinM (Nat.le_max_right depth other) site _ _))
    subst there
    obtain ⟨u, met, -⟩ := leaves_joinM_cons.1 left
    exact ⟨u, met⟩

private theorem acc_of_carried
    (carried : ∀ plan, p.plan? site = some plan → Returns (plan.carryOut depth site) plan.start)
    (each : ∀ o, Prompts site p o → o.MetBy depth site → Acc (fun o p => Prompts site p o) o) :
    Acc (fun o p => Prompts site p o) p := by
  refine .intro p fun o prompts => each o prompts ?_
  cases prompts with
  | source planned finds => exact metBy_of_prompts planned (carried _ planned) (.source planned finds)
  | each planned found done => exact metBy_of_prompts planned (carried _ planned) (.each planned found done)

/-- An iterator that is to yield something prompts questions only. -/
private theorem answer_of_next {s : Session} {v : ValueId} (prompts : Prompts site ⟨s, v, .next⟩ o) :
    ∃ q, o.want = .answer q := by
  cases prompts with
  | source => exact ⟨_, rfl⟩
  | each planned =>
    cases planned
    rw [nextPlan]
    split <;> exact ⟨_, rfl⟩

/-- The questions that an iterator prompts are asked at the same depth. -/
private theorem acc_of_answers (answers : ∀ s v q, Posed.MetBy ⟨s, v, .answer q⟩ depth site →
    Acc (fun o p => Prompts site p o) ⟨s, v, .answer q⟩) (met : p.MetBy depth site) :
    Acc (fun o p => Prompts site p o) p := by
  obtain ⟨s, v, want⟩ := p
  cases want with
  | answer q => exact answers s v q met
  | next =>
    refine acc_of_carried (fun plan planned => ?_) fun o prompts (metBy : o.MetBy depth site) => ?_
    · cases planned
      exact returns_next_iff.1 met
    · obtain ⟨r, w, want⟩ := o
      obtain ⟨q, rfl⟩ := answer_of_next prompts
      exact answers r w q metBy

/-- What comes to an end leads on nowhere for good. -/
theorem acc_of_metBy (met : p.MetBy depth site) : Acc (fun o p => Prompts site p o) p := by
  induction depth generalizing p with
  | zero =>
    refine acc_of_answers (fun s v q met => ?_) met
    obtain ⟨t, values, run⟩ := met
    cases run
  | succ depth ih =>
    refine acc_of_answers (fun s v q met => ?_) met
    exact acc_of_carried (fun plan planned => (returns_answer_iff planned).1 met) fun o _ => ih

/-- A plan comes to an end if everything on the way does. -/
private theorem carried_of_prompted (planned : p.plan? site = some plan)
    (prompted : ∀ o, Prompts site p o → ∃ depth, o.MetBy depth site) :
    ∃ depth, Returns (plan.carryOut depth site) plan.start := by
  obtain ⟨first, items, t, found⟩ : ∃ depth items t, plan.source.values depth site plan.start = .ok items t := by
    cases source : plan.source with
    | these values => exact ⟨0, values, plan.start, rfl⟩
    | found w q =>
      obtain ⟨depth, t, values, run⟩ := prompted _ (.source planned source)
      exact ⟨depth, values.items, t, bind_of_ok run⟩
  -- One value after the other, at larger and larger depths.
  have onward : ∀ before rest, items = before ++ rest →
      ∃ depth, first ≤ depth ∧ ∃ r, Leaves (ValueSet.joinM before (meet depth site plan.want)) t r := by
    intro before
    induction before using List.reverseRecOn with
    | nil => exact fun _ _ => ⟨first, Nat.le_refl _, t, leaves_joinM_nil.2 rfl⟩
    | append_singleton before w ih =>
      intro rest split
      rw [List.append_assoc] at split
      obtain ⟨depth, le, r, done⟩ := ih ([w] ++ rest) split
      have there := ok_of_deepens (deepens_values le site _) found
      rw [split] at there
      obtain ⟨more, u, met⟩ := prompted _ (.each planned there done)
      refine ⟨max depth more, Nat.le_trans le (Nat.le_max_left _ _), u, leaves_joinM_append.2 ⟨r, ?_, ?_⟩⟩
      · exact done.deepen (deepens_joinM (Nat.le_max_left _ _) site _ _)
      · exact leaves_joinM_cons.2 ⟨u, met.deepen (deepens_meet (Nat.le_max_right _ _) site _ _), leaves_joinM_nil.2 rfl⟩
  obtain ⟨depth, le, r, done⟩ := onward items [] (List.append_nil _).symm
  exact ⟨depth, returns_bind_iff.2 ⟨items, t, ok_of_deepens (deepens_values le site _) found, r, done⟩⟩

/-- What closes comes to an end. -/
theorem Posed.Closes.metBy (closes : p.Closes site) : ∃ depth, p.MetBy depth site := by
  obtain ⟨acc, known⟩ := closes
  induction acc with
  | intro p _ ih =>
    cases planned : p.plan? site with
    | none => exact (known p .refl planned).2
    | some plan =>
      obtain ⟨depth, carried⟩ := carried_of_prompted planned fun o prompts =>
        ih o prompts fun k path => known k (.head prompts path)
      obtain ⟨s, v, want⟩ := p
      cases want with
      | answer q => exact ⟨depth + 1, (returns_answer_iff planned).2 carried⟩
      | next =>
        cases planned
        exact ⟨depth, returns_next_iff.2 carried⟩

end Descent

namespace Posed.Closes

variable {site : Site} {depth : Nat} {p : Posed} {plan : Plan} {s t : Session} {v : ValueId} {method : String}
  {args : List ValueSet} {names : List String}

theorem of_plan (planned : p.plan? site = some plan) (next : ∀ o, Prompts site p o → o.Closes site) :
    p.Closes site := by
  refine ⟨.intro p fun o prompts => (next o prompts).acc, fun o path none => ?_⟩
  rcases Relation.ReflTransGen.cases_head path with rfl | ⟨k, prompts, rest⟩
  · rw [planned] at none
    cases none
  · exact (next k prompts).planned o rest none

theorem of_member {name : String} (ends : Returns (answerWithin depth v (.member name) site) s) :
    Closes ⟨s, v, .answer (.member name)⟩ site := by
  have nowhere : ∀ o, ¬ Prompts site ⟨s, v, .answer (.member name)⟩ o := by
    rintro o (planned | planned) <;> cases planned
  refine ⟨.intro _ fun o prompts => absurd prompts (nowhere o), fun o path _ => ?_⟩
  rcases Relation.ReflTransGen.cases_head path with rfl | ⟨k, prompts, -⟩
  · exact ⟨⟨name, rfl⟩, depth, ends⟩
  · exact absurd prompts (nowhere k)

private theorem fixes_of_calls {values : List ValueId} {q : Question}
    (done : Leaves (ValueSet.joinM values (meet depth site (.answer q))) s t) : Fixes s t := by
  induction values generalizing s with
  | nil =>
    cases leaves_joinM_nil.1 done
    exact .refl _
  | cons v rest ih =>
    obtain ⟨r, ⟨a, run⟩, left⟩ := leaves_joinM_cons.1 done
    have first := Fixes.answerWithin depth v site s q
    rw [show after (answerWithin depth v q site) s = r from after_of_ok run] at first
    exact first.trans (ih left)

private theorem of_rest (planned : p.plan? site = some (.rest s)) : p.Closes site := by
  refine of_plan planned fun o prompts => ?_
  obtain ⟨w, q, finds, rfl⟩ | ⟨depth, before, w, rest, t, r, found, done, rfl⟩ := prompts.of_plan planned
  · cases finds
  · obtain ⟨none, -⟩ := EStateM.Result.ok.inj found
    exact absurd none.symm (by simp)

/-- Calls of some values close if they do whenever the values can be called directly, as they can be now. -/
private theorem of_each {values : List ValueId}
    (planned : p.plan? site = some ⟨s, .these values, .answer (.call args names)⟩)
    (direct : ∀ w ∈ values, s.isDirect depth w = true)
    (each : ∀ r w, r.isDirect depth w = true → Closes ⟨r, w, .answer (.call args names)⟩ site) :
    p.Closes site := by
  refine of_plan planned fun o prompts => ?_
  obtain ⟨w, q, finds, rfl⟩ | ⟨more, before, w, rest, t, r, found, done, rfl⟩ := prompts.of_plan planned
  · cases finds
  · cases found
    exact each r w ((fixes_of_calls done).isDirect (direct w (by simp)))

/-- A call that looks nothing up closes. -/
theorem of_direct (direct : s.isDirect depth v = true) (args : List ValueSet) (names : List String) :
    Closes ⟨s, v, .answer (.call args names)⟩ site := by
  induction depth generalizing s v args names with
  | zero => cases direct
  | succ depth ih =>
    have planned : Posed.plan? ⟨s, v, .answer (.call args names)⟩ site = s.callPlan? site v args names := rfl
    unfold callPlan? at planned
    unfold isDirect at direct
    cases hv : s.form v <;> rw [hv] at direct planned <;> dsimp only [Form.passesCalls] at direct planned
    case boundMethod function self =>
      exact of_each planned (List.all_eq_true.1 direct) fun r w direct => ih direct _ _
    case multiple members => exact of_each planned (List.all_eq_true.1 direct) fun r w direct => ih direct _ _
    all_goals first | exact of_rest planned | cases direct

/-- A method closes if the calls of all that is found do, one after the other. -/
private theorem of_lookup {found : ValueSet} {r : Session} (planned : p.plan? site = some (.method t v method args names))
    (looked : answerWithin depth v (.member method) site t = .ok found r)
    (each : ∀ more before w rest q, found.items = before ++ w :: rest →
      Leaves (ValueSet.joinM before (meet more site (.answer (.call args names)))) r q →
        Closes ⟨q, w, .answer (.call args names)⟩ site) : p.Closes site := by
  refine of_plan planned fun o prompts => ?_
  obtain ⟨w, q, finds, rfl⟩ | ⟨more, before, w, rest, k, q, finds, done, rfl⟩ := prompts.of_plan planned
  · cases finds
    exact of_member ⟨r, found, looked⟩
  · obtain ⟨other, u, run, ends⟩ := bind_eq_ok finds
    have same := (ok_of_deepens (.answerWithin (Nat.le_max_left more depth) v (.member method) site) run).symm.trans
      (ok_of_deepens (.answerWithin (Nat.le_max_right more depth) v (.member method) site) looked)
    cases same
    obtain ⟨items, rfl⟩ := EStateM.Result.ok.inj ends
    exact each more before w rest q items done

/-- A method that is found and can be called directly closes. -/
theorem of_method (planned : p.plan? site = some (.method t v method args names))
    (finds : t.FindsDirect depth v method site) : p.Closes site := by
  obtain ⟨found, r, looked, direct⟩ := finds
  refine of_lookup planned looked fun more before w rest q split done => ?_
  exact of_direct ((fixes_of_calls done).isDirect (direct w (by rw [split]; simp))) args names

/-- A single method that is found closes if its call does. -/
theorem of_single {found : ValueSet} {r : Session} {w : ValueId}
    (planned : p.plan? site = some (.method t v method args names))
    (looked : answerWithin depth v (.member method) site t = .ok found r) (only : found.items = [w])
    (next : Closes ⟨r, w, .answer (.call args names)⟩ site) : p.Closes site := by
  refine of_lookup planned looked fun more before u rest q split done => ?_
  rw [only] at split
  cases before with
  | nil =>
    cases split
    cases leaves_joinM_nil.1 done
    exact next
  | cons => simp at split

/-- The call of a class closes if that of its only initializer does. -/
theorem of_class {self w : ValueId} {found : ValueSet} {r : Session} (made : userInstance v s = .ok (some self) t)
    (looked : answerWithin depth self (.member "__init__") site t = .ok found r) (only : found.items = [w])
    (next : Closes ⟨r, w, .answer (.call args names)⟩ site) : Closes ⟨s, v, .answer (.call args names)⟩ site :=
  of_single (plan?_of_class made site args names) looked only next

theorem of_instance {q : Question} (self : (s.form v).isInstance = true) (asks : q.method? = some (method, args, names))
    (finds : s.FindsDirect depth v method site) : Closes ⟨s, v, .answer q⟩ site :=
  of_method (plan?_of_instance self asks site) finds

end Posed.Closes

end Typeflow.Session
