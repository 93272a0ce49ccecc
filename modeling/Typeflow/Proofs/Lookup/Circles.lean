import Typeflow.Proofs.Lookup.Graph
import Typeflow.Proofs.Lookup.Total

/-! Lookups of members yield nothing where they come across a value that leads back to itself past all classes. -/
namespace Typeflow.Session

variable {α β : Type} {P : Session → Prop}

/-- Whichever way leads from one point to another, there is one that does not come back to its beginning. -/
theorem last_departure {r : α → α → Prop} {a b : α} (path : Relation.ReflTransGen r a b) :
    b = a ∨ ∃ c, r a c ∧ Relation.ReflTransGen (fun x y => r x y ∧ x ≠ a) c b := by
  induction path with
  | refl => exact .inl rfl
  | @tail b c _ step ih =>
    by_cases back : b = a
    · exact .inr ⟨c, back ▸ step, .refl⟩
    · obtain ⟨d, first, rest⟩ := ih.resolve_left back
      exact .inr ⟨d, first, rest.tail ⟨step, back⟩⟩

section Graph

variable {s : Session} {name : String} {marked : Finset ValueId} {v : ValueId}

/-- A circle is gone round for good. -/
theorem Circular.next (h : s.Circular v) : ∃ w, s.Passes v w ∧ s.Circular w := by
  obtain ⟨w, step, back⟩ := Relation.TransGen.head'_iff.1 h
  exact ⟨w, step, Relation.TransGen.tail' back step⟩

/-- From the value a lookup of the name comes to a circle without the classes that are being searched. -/
def Strays (s : Session) (name : String) (marked : Finset ValueId) (v : ValueId) : Prop :=
  ∃ x, Relation.ReflTransGen (fun a b => s.Seeks name a b ∧ a ∉ marked) v x ∧ s.Circular x

theorem strays_of_not_unwinds (h : ¬ s.Unwinds name v) : s.Strays name ∅ v := by
  simp only [Unwinds, not_forall, not_not] at h
  obtain ⟨x, path, circular⟩ := h
  exact ⟨x, Relation.ReflTransGen.mono (fun a b step => ⟨step, Finset.notMem_empty a⟩) _ _ path, circular⟩

/-- The next value is as bad. If the value is a class, the way need not come back to it. -/
theorem Strays.next (h : s.Strays name marked v) :
    (∃ w, s.Passes v w ∧ s.Strays name marked w) ∨
      ∃ c w, s.form v = .userClass c ∧ c.resolving = false ∧ s.Lacks c.scope name ∧
        w ∈ (s.types c.bases).items ∧ v ∉ marked ∧ s.Strays name (insert v marked) w := by
  obtain ⟨x, path, circular⟩ := h
  rcases Relation.ReflTransGen.cases_head path with same | ⟨w, ⟨step, free⟩, rest⟩
  · obtain ⟨w, step, also⟩ := (same ▸ circular).next
    exact .inl ⟨w, step, w, .refl, also⟩
  · cases step with
    | passes step => exact .inl ⟨w, step, x, rest, circular⟩
    | inherits hv idle lacks mem =>
      have cls : (s.form v).kind = .userClass := by rw [hv]; rfl
      rcases last_departure path with same | ⟨u, ⟨step, -⟩, rest⟩
      · obtain ⟨w, step, -⟩ := (same ▸ circular).next
        exact absurd cls step.kind
      · cases step with
        | passes step => exact absurd cls step.kind
        | inherits hu idle lacks mem =>
          refine .inr ⟨_, u, hu, idle, lacks, mem, free, x, Relation.ReflTransGen.mono (fun a b step => ?_) _ _ rest, circular⟩
          exact ⟨step.1.1, fun own => (Finset.mem_insert.1 own).elim step.2 step.1.2⟩

end Graph

/-- Where `P` holds the action yields nothing. -/
def Barren (P : Session → Prop) (m : Analysis α) : Prop := ∀ t, P t → ∀ a r, m t ≠ .ok a r

namespace Barren

variable {m : Analysis α} {f : α → Analysis β}

theorem bind (h : Barren P m) : Barren P (m >>= f) := by
  intro t holds b r ends
  obtain ⟨a, q, first, -⟩ := bind_eq_ok ends
  exact h t holds a q first

theorem look {f : Session → Analysis α} (h : ∀ t, P t → Barren P (f t)) : Barren P (get >>= f) :=
  fun t holds => h t holds t holds

variable {s : Session} {marked : Finset ValueId}

/-- What comes before may succeed, and is known to yield. -/
theorem past {Q : α → Prop} (looks : Looks m) (knows : ∀ t, Amid s marked t → ∀ a r, m t = .ok a r → Q a)
    (h : ∀ a, Q a → Barren (Amid s marked) (f a)) : Barren (Amid s marked) (m >>= f) := by
  intro t amid b r ends
  obtain ⟨a, q, first, rest⟩ := bind_eq_ok ends
  have peeks := looks t
  rw [after_of_ok first] at peeks
  exact h a (knows t amid a q first) q (amid.peeks peeks) b r rest

theorem goOn (looks : Looks m) (h : ∀ a, Barren (Amid s marked) (f a)) : Barren (Amid s marked) (m >>= f) :=
  past (Q := fun _ => True) looks (fun _ _ _ _ _ => trivial) fun a _ => h a

/-- All have to yield something for the union. -/
theorem joinM {items : List α} {f : α → Analysis ValueSet} {a : α} (looks : ∀ b, Looks (f b)) (mem : a ∈ items)
    (h : Barren (Amid s marked) (f a)) : Barren (Amid s marked) (ValueSet.joinM items f) := by
  have loop : ∀ (items : List α) (acc : ValueSet), a ∈ items →
      Barren (Amid s marked) (items.foldlM (fun acc item => do return acc.join (← f item)) acc) := by
    intro items
    induction items with
    | nil => exact fun _ mem => nomatch mem
    | cons b rest ih =>
      intro acc mem
      rcases List.mem_cons.1 mem with rfl | mem
      · exact bind (bind h)
      · exact .goOn (.bind (looks b) fun _ => .pure _) fun grown => ih grown mem
  exact loop items .empty mem

section Rules

variable {name : String} {site : Site} {ask : Ask} {v w : ValueId}

/-- The instance that stands for a value is there already. -/
theorem exemplarMember {cls : ValueId} {type : ObjectId} (of : s.form cls = .builtinClass type)
    (kept : s.exemplar? cls = some w) (h : Barren (Amid s marked) (ask w (.member name) site)) :
    Barren (Amid s marked) (Session.exemplarMember ask (some cls) name site) := by
  refine past (Q := (· = some w)) (.builtinInstance cls) (fun t amid found r run => ?_) fun found same => ?_
  · have made : (t.value cls).form = .builtinClass type := amid.keeps of nofun nofun nofun
    have old : (t.value cls).kept? .instance_ = some w := amid.kept cls w kept
    simp only [exemplarOf, builtinInstance, read_run, made, keptOr] at run
    rw [bind_of_ok (by rw [read_run, old]; rfl)] at run
    cases run
    rfl
  · subst same
    exact h

/-- Lookups leave the types of records as they are. -/
theorem readAt {x : VarId} {f : ValueSet → Analysis α} (h : Barren (Amid s marked) (f (s.types x))) :
    Barren (Amid s marked) (Session.readAt x site >>= f) := by
  refine past (Q := (· = s.types x)) (.readAt x site) (fun t amid values r run => ?_) fun values same => by rwa [same]
  have peeks := Peeks.addReader x site.unit t
  cases run
  exact (amid.peeks peeks).types x

/-- A name that a class has not got has no types when it is made. -/
theorem nameIn {c : ScopeId} {f : VarId → Analysis α} (inner : s.Inner c) (lacks : s.Lacks c name)
    (h : ∀ x, (s.types x).isEmpty = true → Barren (Amid s marked) (f x)) :
    Barren (Amid s marked) (Session.nameIn c name >>= f) := by
  refine past (.nameIn c name) (fun t amid x r run => ?_) h
  rw [← amid.types]
  cases hf : t.findName? c name with
  | some y =>
    rw [nameIn_of_some hf] at run
    cases run
    exact (amid.lacks c name inner).2 lacks _ hf
  | none =>
    rw [nameIn_of_none hf] at run
    cases run
    rw [Fills.types_of_le (x := ⟨t.records.size⟩) (Nat.le_refl _)]
    rfl

variable (looks : ∀ v name, Looks (ask v (.member name) site))
include looks

/-- A value that passes a lookup on yields what the next one does. -/
theorem memberOf_of_passes (step : s.Passes v w) (h : Barren (Amid s marked) (ask w (.member name) site)) :
    Barren (Amid s marked) (Session.memberOf ask v name site) := by
  refine look fun t amid => ?_
  cases step with
  | builtinInstance hv =>
    rw [amid.keeps hv nofun nofun nofun]
    exact bind h
  | userInstance hv =>
    obtain ⟨more, hv⟩ := amid.userInstance hv
    rw [hv]
    refine goOn (.attributeOf v name) fun found => ?_
    cases found with
    | some x => exact goOn (.readAt x site) fun _ => bind h
    | none => exact goOn (.pure _) fun _ => bind h
  | multiple hv mem =>
    rw [amid.keeps hv nofun nofun nofun]
    exact joinM (fun member => looks member name) mem h
  | @wrapper x hv wraps =>
    rw [amid.keeps hv nofun nofun nofun]
    dsimp only
    rw [wraps]
    exact h
  | @super cls instances c hv of mem =>
    rw [amid.keeps hv nofun nofun nofun]
    refine look fun r amid => ?_
    obtain ⟨on, of⟩ := amid.userClass of
    rw [of]
    refine readAt (joinM (fun base => ?_) mem (bind h))
    exact .bind (looks base name) fun _ => .joinM (.throughSuper instances) _
  | @exemplar cls type hv of kept =>
    have rule : Barren (Amid s marked) (Session.exemplarMember ask (some cls) name site) := exemplarMember of kept h
    cases hf : s.form v with
    | constant | sequence | iterator =>
      rw [hf] at hv
      cases hv
      rw [amid.keeps hf nofun nofun nofun]
      first | exact rule | exact bind rule
    | _ =>
      rw [hf] at hv
      cases hv

/-- A class that is not being searched and has nothing under the name yields what its bases do. -/
theorem memberOf_of_class {c : UserClass} (hv : s.form v = .userClass c) (idle : c.resolving = false)
    (inner : s.Inner c.scope) (lacks : s.Lacks c.scope name) (fresh : v ∉ marked) (mem : w ∈ (s.types c.bases).items)
    (h : Barren (Amid s (insert v marked)) (ask w (.member name) site)) :
    Barren (Amid s marked) (Session.memberOf ask v name site) := by
  refine look fun t amid => ?_
  obtain ⟨on, ht⟩ := amid.userClass hv
  rw [ht]
  refine nameIn inner lacks fun x none => readAt ?_
  rw [none]
  refine readAt (look fun r amid => ?_)
  have unmarked : r.isResolving v = false := by
    rw [isResolving_eq, amid.mark, hv, Form.marked, idle, decide_eq_false fresh]
    rfl
  rw [unmarked]
  have stuck : Barren (Amid s (insert v marked)) (ask.all (s.types c.bases) (.member name) site) :=
    joinM (fun base => looks base name) mem h
  intro q amid values r ends
  dsimp only at ends
  rw [if_neg Bool.false_ne_true, whileResolving_run] at ends
  cases run : ask.all (s.types c.bases) (.member name) site (after (setResolving v true) q) with
  | ok found p => exact stuck _ (amid.search (by rw [hv]; rfl)) found p run
  | error e p =>
    rw [run] at ends
    cases ends

end Rules

/-- A lookup that comes to a circle yields nothing at any depth. -/
theorem member (own : ∀ v c, s.form v = .userClass c → s.Inner c.scope) {name : String} {v : ValueId}
    (strays : s.Strays name marked v) (depth : Nat) (site : Site) :
    Barren (Amid s marked) (answerWithin depth v (.member name) site) := by
  induction depth generalizing v marked with
  | zero => exact fun t _ a r ends => nomatch ends
  | succ depth ih =>
    have looks : ∀ v name, Looks (answerWithin depth v (.member name) site) := fun v name => .member depth v name site
    rcases strays.next with ⟨w, step, more⟩ | ⟨c, w, hv, idle, lacks, mem, fresh, more⟩
    · exact memberOf_of_passes looks step (ih more)
    · exact memberOf_of_class looks hv idle (own v c hv) lacks fresh mem (ih more)

end Barren

end Typeflow.Session
