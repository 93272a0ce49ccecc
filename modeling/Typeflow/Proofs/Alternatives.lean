import Typeflow.Proofs.Alternatives.InTurn
import Typeflow.Proofs.Alternatives.Presence
import Typeflow.Proofs.Dispatch

/-! Values that may be one of several. Lookups of members and calls ask every alternative; for the rest there is only
what lookups and calls make of it, so that alternatives that iterate by other means, and the instances of classes, are
passed over. -/
namespace Typeflow

/-- Whether the form is that of a class. -/
def Form.isClass : Form → Bool
  | .builtinClass _ | .userClass _ => true
  | _ => false

namespace Session

/-- Whether values of this form answer the question by a rule of their own, and not by the method for it. -/
def Question.hasOwnRule : Question → Form → Bool
  | .member _, _ | .call .., _ => true
  | .iterator, .constant .. | .iterator, .sequence .. | .iterator, .iterator .. => true
  | .elements, .constant .. | .elements, .sequence .. | .elements, .iterator .. | .elements, .builtinInstance _ => true
  | .index _, .constant .. | .index _, .sequence .. | .index _, .builtinInstance _ => true
  | _, _ => false

variable {s t : Session} {ask : Ask} {v w : ValueId} {members : List ValueId} {q : Question} {site : Site}
  {method : String} {args : List ValueSet} {names : List String} {depth : Nat}

section Instances

/-- A class yields its instance, which is no class; other values yield none. -/
theorem instancesOf_run (w : ValueId) (s : Session) : ∃ found t, instancesOf w s = .ok found t ∧
    (found = .empty ↔ (s.form w).isClass = false) ∧ ∀ u, (t.form u).isClass = (s.form u).isClass := by
  have single (i : ValueId) : ValueSet.single (some i) ≠ .empty := by rintro ⟨⟩
  have makes (form : Form) (there : w.index < s.values.size) (other : form.isClass = false)
      (name description : String) : ∃ i t, keptOr w .instance_ (newValue name description .instance_ form) s = .ok i t ∧
        ∀ u, (t.form u).isClass = (s.form u).isClass := by
    cases kept : s.exemplar? w with
    | some i => exact ⟨i, s, keptOr_run_of_some kept _, fun _ => rfl⟩
    | none =>
      refine ⟨_, _, keptOr_run_of_none kept there name description .instance_ form, fun u => ?_⟩
      rw [form_withInstance there, withValue, form_push]
      split
      · next new => rw [other, form_of_le (Nat.le_of_eq new.symm)]; rfl
      · rfl
  cases hw : s.form w with
  | builtinClass type =>
    have there : w.index < s.values.size := index_lt_of_form (by rw [hw]; rintro ⟨⟩)
    obtain ⟨i, t, made, same⟩ := makes (.builtinInstance w) there rfl (s.value w).name (s.value w).name
    have run : builtinInstance w s = .ok (some i) t := by
      rw [builtinInstance, read_run, show (s.value w).form = _ from hw]
      exact bind_of_ok made
    refine ⟨.single (some i), t, ?_, ⟨fun h => absurd h (single i), by rintro ⟨⟩⟩, same⟩
    rw [instancesOf, read_run, hw]
    exact bind_of_ok run
  | userClass c =>
    have there : w.index < s.values.size := index_lt_of_form (by rw [hw]; rintro ⟨⟩)
    obtain ⟨i, t, made, same⟩ :=
      makes (.userInstance w {}) there rfl (s.value w).name ((s.value w).name ++ " instance")
    have run : userInstance w s = .ok (some i) t := by
      rw [userInstance, read_run, show (s.value w).form = _ from hw]
      exact bind_of_ok made
    refine ⟨.single (some i), t, ?_, ⟨fun h => absurd h (single i), by rintro ⟨⟩⟩, same⟩
    rw [instancesOf, read_run, hw]
    exact bind_of_ok run
  | _ =>
    refine ⟨.empty, s, ?_, ⟨fun _ => rfl, fun _ => rfl⟩, fun _ => rfl⟩
    rw [instancesOf, read_run, hw]
    rfl

/-- Several values have no instances if none of them is a class. -/
theorem joinM_instancesOf (members : List ValueId) (s : Session) :
    ∃ found t, ValueSet.joinM members instancesOf s = .ok found t ∧
      (found = .empty ↔ ∀ w ∈ members, (s.form w).isClass = false) := by
  have turns : ∀ s, ∃ answers t, InTurn instancesOf members s answers t ∧
      ((∀ a ∈ answers, a = .empty) ↔ ∀ w ∈ members, (s.form w).isClass = false) := by
    induction members with
    | nil => exact fun s => ⟨[], s, .done s, by simp⟩
    | cons w rest ih =>
      intro s
      obtain ⟨found, r, first, none, same⟩ := instancesOf_run w s
      obtain ⟨answers, t, others, nones⟩ := ih r
      refine ⟨found :: answers, t, .next first others, ?_⟩
      simp only [List.forall_mem_cons, none, nones, same]
  obtain ⟨answers, t, asked, nones⟩ := turns s
  refine ⟨.unionAll answers 0, t, ((unites_joinM instancesOf members s).yields _ t).2 ⟨answers, asked, rfl⟩, ?_⟩
  rw [← nones, ValueSet.eq_iff_members, ValueSet.members_unionAll, ValueSet.capAt_zero, ValueSet.members_empty,
    Finset.sup_eq_bot_iff]
  simp only [List.mem_toFinset, ValueSet.eq_iff_members, ValueSet.members_empty]

end Instances

section Rules

/-- A value without a rule of its own answers by its method. -/
theorem respond_by_method (asks : q.method? = some (method, args, names)) (plain : q.hasOwnRule (s.form v) = false) :
    respond ask v q site s = ask.callMember v method args names site s := by
  cases q with
  | iterator =>
    cases asks
    rw [respond, iteratorOf, read_run]
    cases hv : s.form v <;> rw [hv] at plain <;> first | rfl | cases plain
  | index i =>
    cases asks
    rw [respond, indexOf, read_run]
    cases hv : s.form v <;> rw [hv] at plain <;> first | rfl | cases plain
  | call => cases plain
  | member | elements => cases asks

/-- A value without a rule of its own yields what its iterators do. -/
theorem respond_elements (plain : Question.elements.hasOwnRule (s.form v) = false) :
    respond ask v .elements site s = elementsByMethod ask v site s := by
  rw [respond, elementsOf, read_run]
  cases hv : s.form v <;> rw [hv] at plain <;> first | rfl | cases plain

variable (multiple : s.form v = .multiple members)
include multiple

private theorem respond_member_multiple (name : String) :
    respond ask v (.member name) site s = ValueSet.joinM members (fun w => ask w (.member name) site) s := by
  rw [respond, memberOf, read_run, multiple]

private theorem respond_call_multiple (args : List ValueSet) (names : List String) :
    respond ask v (.call args names) site s = ValueSet.joinM members (fun w => ask w (.call args names) site) s := by
  rw [respond, callOf, read_run, multiple]

private theorem unites_member (depth : Nat) (name : String) :
    Unites (answerWithin (depth + 1) v (.member name) site) (fun w => answerWithin depth w (.member name) site) members s :=
  (unites_joinM _ members s).of_run (respond_member_multiple multiple name)

private theorem unites_call (depth : Nat) (args : List ValueSet) (names : List String) :
    Unites (answerWithin (depth + 1) v (.call args names) site) (fun w => answerWithin depth w (.call args names) site)
      members s :=
  (unites_joinM _ members s).of_run (respond_call_multiple multiple args names)

/-- The methods of all alternatives are looked up first, and what is found together is called. -/
theorem by_methods_of_alternatives (depth : Nat) (asks : q.method? = some (method, args, names))
    (plain : q.hasOwnRule (s.form v) = false) (found : ValueSet) (t : Session) :
    answerWithin (depth + 2) v q site s = .ok found t ↔
      ∃ methods r results, InTurn (fun w => answerWithin depth w (.member method) site) members s methods r ∧
        InTurn (fun f => answerWithin (depth + 1) f (.call args names) site) (ValueSet.unionAll methods 0).items r
          results t ∧ found = .unionAll results 0 := by
  have rule : answerWithin (depth + 2) v q site s =
      (answerWithin (depth + 1)).callMember v method args names site s := respond_by_method asks plain
  rw [rule]
  constructor
  · intro run
    obtain ⟨looked, r, first, second⟩ := bind_eq_ok run
    obtain ⟨methods, finds, rfl⟩ := ((unites_member multiple depth method).yields looked r).1 first
    obtain ⟨results, called, rfl⟩ := ((unites_joinM _ _ r).yields found t).1 second
    exact ⟨methods, r, results, finds, called, rfl⟩
  · rintro ⟨methods, r, results, finds, called, rfl⟩
    have first := ((unites_member multiple depth method).yields _ r).2 ⟨methods, finds, rfl⟩
    exact (bind_of_ok first).trans (((unites_joinM _ _ r).yields _ t).2 ⟨results, called, rfl⟩)

end Rules

section Certain

variable {P : Session → Prop} {found result : ValueId → ValueSet}

/-- Where nothing changes any more the alternatives yield together what the value yields that stands for them, if all
answer by the method. -/
theorem certain_by_method (multiple : ∀ s, P s → s.form v = .multiple members)
    (asks : q.method? = some (method, args, names))
    (plain : ∀ s, P s → ∀ w ∈ v :: members, q.hasOwnRule (s.form w) = false)
    (finds : ∀ w ∈ members, Certain P (answerWithin depth w (.member method) site) (found w))
    (known : ∀ w ∈ members, found w ≠ .top)
    (calls : ∀ w ∈ members, ∀ f ∈ (found w).items,
      Certain P (answerWithin (depth + 1) f (.call args names) site) (result f)) :
    ∃ answer, (∀ w ∈ members, Certain P (answerWithin (depth + 2) w q site) (answer w)) ∧
      Certain P (answerWithin (depth + 2) v q site) (.unionAll (members.map answer) 0) := by
  have rule : ∀ w ∈ v :: members, ∀ s, P s → answerWithin (depth + 2) w q site s =
      (answerWithin (depth + 1)).callMember w method args names site s :=
    fun w mem s hs => respond_by_method asks (plain s hs w mem)
  refine ⟨fun w => .unionAll ((found w).items.map result) 0, fun w mem => ?_, ?_⟩
  · have looked := (finds w mem).deeper (Nat.le_succ depth)
    exact (looked.bind (.joinM (calls w mem))).congr (rule w (List.mem_cons_of_mem v mem))
  · have looked : Certain P (answerWithin (depth + 1) v (.member method) site) (.unionAll (members.map found) 0) :=
      (Certain.joinM finds).congr fun s hs => respond_member_multiple (multiple s hs) method
    have called : ∀ f ∈ (ValueSet.unionAll (members.map found) 0).items,
        Certain P (answerWithin (depth + 1) f (.call args names) site) (result f) := by
      intro f mem
      obtain ⟨w, hw, hf⟩ := (ValueSet.mem_items_unionAll known).1 mem
      exact calls w hw f hf
    rw [← ValueSet.unionAll_map_items members found result known]
    exact (looked.bind (.joinM called)).congr (rule v List.mem_cons_self)

/-- So it is for elements, if the alternatives iterate together as the value does. -/
theorem certain_elements (plain : ∀ s, P s → ∀ w ∈ v :: members, Question.elements.hasOwnRule (s.form w) = false)
    (iterates : ∀ w ∈ members, Certain P (answerWithin depth w .iterator site) (found w))
    (together : Certain P (answerWithin depth v .iterator site) (.unionAll (members.map found) 0))
    (known : ∀ w ∈ members, found w ≠ .top)
    (yields : ∀ w ∈ members, ∀ i ∈ (found w).items, Certain P (nextOf (answerWithin depth) i site) (result i)) :
    ∃ answer, (∀ w ∈ members, Certain P (answerWithin (depth + 1) w .elements site) (answer w)) ∧
      Certain P (answerWithin (depth + 1) v .elements site) (.unionAll (members.map answer) 0) := by
  have rule : ∀ w ∈ v :: members, ∀ s, P s → answerWithin (depth + 1) w .elements site s =
      elementsByMethod (answerWithin depth) w site s := fun w mem s hs => respond_elements (plain s hs w mem)
  refine ⟨fun w => .unionAll ((found w).items.map result) 0, fun w mem => ?_, ?_⟩
  · exact ((iterates w mem).bind (.joinM (yields w mem))).congr (rule w (List.mem_cons_of_mem v mem))
  · have yielded : ∀ i ∈ (ValueSet.unionAll (members.map found) 0).items,
        Certain P (nextOf (answerWithin depth) i site) (result i) := by
      intro i mem
      obtain ⟨w, hw, hi⟩ := (ValueSet.mem_items_unionAll known).1 mem
      exact yields w hw i hi
    rw [← ValueSet.unionAll_map_items members found result known]
    exact (together.bind (.joinM yielded)).congr (rule v List.mem_cons_self)

end Certain

/-- A value that stands for alternatives has the members that they have together and yields together what they yield
when they are called; a failure of one of them is its own. A module among several has a member as surely as the
surest of them. It has no instances, though its alternatives have some as soon as one of them is a class, and it
iterates and is indexed by the methods that the lookup finds on the alternatives: that is what the alternatives yield
together if nothing changes on the way, what they look up is known and none of them has a rule of its own. -/
theorem alternatives_answer_together (multiple : s.form v = .multiple members) (site : Site) (depth : Nat) :
    (∀ name, Unites (answerWithin (depth + 1) v (.member name) site)
      (fun w => answerWithin depth w (.member name) site) members s) ∧
    (∀ args names, Unites (answerWithin (depth + 1) v (.call args names) site)
      (fun w => answerWithin depth w (.call args names) site) members s) ∧
    (∀ name, s.presence v name = (members.map fun w => s.presence w name).foldl Presence.max .absent) ∧
    (instancesOf v s = .ok .empty s ∧ ∃ found t, ValueSet.joinM members instancesOf s = .ok found t ∧
      (found = .empty ↔ ∀ w ∈ members, (s.form w).isClass = false)) ∧
    (∀ q method args names, q.method? = some (method, args, names) → q.hasOwnRule (s.form v) = false →
      ∀ found t, answerWithin (depth + 2) v q site s = .ok found t ↔
        ∃ methods r results, InTurn (fun w => answerWithin depth w (.member method) site) members s methods r ∧
          InTurn (fun f => answerWithin (depth + 1) f (.call args names) site) (ValueSet.unionAll methods 0).items r
            results t ∧ found = .unionAll results 0) ∧
    ∀ (P : Session → Prop) (found result : ValueId → ValueSet), (∀ r, P r → r.form v = .multiple members) →
      (∀ w ∈ members, found w ≠ .top) →
      (∀ q method args names, q.method? = some (method, args, names) →
        (∀ r, P r → ∀ w ∈ v :: members, q.hasOwnRule (r.form w) = false) →
        (∀ w ∈ members, Certain P (answerWithin depth w (.member method) site) (found w)) →
        (∀ w ∈ members, ∀ f ∈ (found w).items,
          Certain P (answerWithin (depth + 1) f (.call args names) site) (result f)) →
        ∃ answer, (∀ w ∈ members, Certain P (answerWithin (depth + 2) w q site) (answer w)) ∧
          Certain P (answerWithin (depth + 2) v q site) (.unionAll (members.map answer) 0)) ∧
      ((∀ r, P r → ∀ w ∈ v :: members, Question.elements.hasOwnRule (r.form w) = false) →
        (∀ w ∈ members, Certain P (answerWithin depth w .iterator site) (found w)) →
        Certain P (answerWithin depth v .iterator site) (.unionAll (members.map found) 0) →
        (∀ w ∈ members, ∀ i ∈ (found w).items, Certain P (nextOf (answerWithin depth) i site) (result i)) →
        ∃ answer, (∀ w ∈ members, Certain P (answerWithin (depth + 1) w .elements site) (answer w)) ∧
          Certain P (answerWithin (depth + 1) v .elements site) (.unionAll (members.map answer) 0)) := by
  refine ⟨unites_member multiple depth, unites_call multiple depth, presence_multiple multiple, ⟨?_, ?_⟩, ?_, ?_⟩
  · rw [instancesOf, read_run, multiple]
    rfl
  · exact joinM_instancesOf members s
  · exact fun q method args names asks plain => by_methods_of_alternatives multiple depth asks plain
  · intro P found result stays known
    refine ⟨fun q method args names asks plain finds calls => ?_, fun plain iterates together yields => ?_⟩
    · exact certain_by_method stays asks plain finds known calls
    · exact certain_elements plain iterates together known yields

/-- The form of a value that stands for alternatives can be told by what a call is passed on to. -/
theorem form_of_passesCalls (kind : (s.form v).kind = .multipleMembers)
    (passes : (s.form v).passesCalls = some members) : s.form v = .multiple members := by
  cases hv : s.form v with
  | multiple others =>
    rw [hv] at passes
    cases passes
    rfl
  | _ =>
    rw [hv] at kind
    cases kind

/-- A host with text and byte strings, one that is either, and a binding for either of their types. -/
def eitherTextHost : Host where
  objects := #[⟨.type "str" "" .unicode {}, .type⟩, ⟨.type "bytes" "" .bytes {}, .type⟩,
    ⟨.primitive (.str "a"), .primitive⟩, ⟨.primitive (.bytes "b"), .primitive⟩,
    ⟨.multiple [some ⟨2⟩, some ⟨3⟩], .multipleMembers⟩, ⟨.multiple [some ⟨0⟩, some ⟨1⟩], .multipleMembers⟩]
  types := [(.unicode, ⟨0⟩), (.bytes, ⟨1⟩)]

/-- A session on this host in which the values of both bindings have been asked for. -/
def eitherText : Session :=
  after (valueOf (some ⟨5⟩)) (after (valueOf (some ⟨4⟩)) (after load (blank {} eitherTextHost [])))

/-- What the bindings stand for, and where asking them differs from asking their alternatives. -/
theorem asked_eitherText :
    let site : Site := ⟨default, ⟨0⟩⟩
    ((eitherText.form ⟨4⟩).kind = .multipleMembers ∧ (eitherText.form ⟨4⟩).passesCalls = some [⟨1⟩, ⟨3⟩]) ∧
    ((eitherText.form ⟨5⟩).kind = .multipleMembers ∧ (eitherText.form ⟨5⟩).passesCalls = some [⟨0⟩, ⟨2⟩]) ∧
    (eitherText.form ⟨0⟩).isClass = true ∧
    yield? (instancesOf ⟨5⟩) eitherText ≠ yield? (ValueSet.joinM [⟨0⟩, ⟨2⟩] instancesOf) eitherText ∧
    yield? (answer ⟨4⟩ .elements site) eitherText ≠
      yield? (ValueSet.joinM [⟨1⟩, ⟨3⟩] fun w => answer w .elements site) eitherText ∧
    yield? (answer ⟨4⟩ (.index .empty) site) eitherText ≠
      yield? (ValueSet.joinM [⟨1⟩, ⟨3⟩] fun w => answer w (.index .empty) site) eitherText := by
  decide +kernel

private theorem form_eitherText : eitherText.form ⟨4⟩ = .multiple [⟨1⟩, ⟨3⟩] ∧ eitherText.form ⟨5⟩ = .multiple [⟨0⟩, ⟨2⟩] := by
  obtain ⟨⟨text, texts⟩, ⟨type, types⟩, -⟩ := asked_eitherText
  exact ⟨form_of_passesCalls text texts, form_of_passesCalls type types⟩

/-- The types have instances where the binding for both has none. -/
theorem either_type_has_no_instances :
    instancesOf ⟨5⟩ eitherText = .ok .empty eitherText ∧
      ∃ found t, ValueSet.joinM [⟨0⟩, ⟨2⟩] instancesOf eitherText = .ok found t ∧ found ≠ .empty := by
  obtain ⟨-, -, -, ⟨none, found, t, run, empty⟩, -⟩ :=
    alternatives_answer_together form_eitherText.2 ⟨default, ⟨0⟩⟩ 0
  refine ⟨none, found, t, run, fun same => ?_⟩
  obtain ⟨-, -, class_, -⟩ := asked_eitherText
  rw [empty.1 same ⟨0⟩ List.mem_cons_self] at class_
  cases class_

/-- Instances of either type, pieces of text and what either string has at an index are lost. -/
theorem either_text_loses_alternatives :
    let site : Site := ⟨default, ⟨0⟩⟩
    ¬ (∀ v members, eitherText.form v = .multiple members →
      yield? (instancesOf v) eitherText = yield? (ValueSet.joinM members instancesOf) eitherText) ∧
    ¬ (∀ v members, eitherText.form v = .multiple members →
      yield? (answer v .elements site) eitherText =
        yield? (ValueSet.joinM members fun w => answer w .elements site) eitherText) ∧
    ¬ ∀ v members, eitherText.form v = .multiple members → yield? (answer v (.index .empty) site) eitherText =
      yield? (ValueSet.joinM members fun w => answer w (.index .empty) site) eitherText := by
  intro site
  obtain ⟨-, -, -, instances, elements, items⟩ := asked_eitherText
  exact ⟨fun same => instances (same ⟨5⟩ _ form_eitherText.2), fun same => elements (same ⟨4⟩ _ form_eitherText.1),
    fun same => items (same ⟨4⟩ _ form_eitherText.1)⟩

end Session

end Typeflow
