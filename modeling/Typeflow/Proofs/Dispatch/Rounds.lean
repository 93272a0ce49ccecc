import Typeflow.Proofs.Lookup.Looks
import Typeflow.Proofs.Resources.Declare

/-! Calls that go round in circles: a class or an instance hands a call on to what its method is, and that may be the
class or the instance itself. -/
namespace Typeflow.Session

variable {s t r : Session} {v w cls self : ValueId} {c : UserClass} {name : String} {site : Site}

def Bare (s : Session) (v : ValueId) (name : String) : Prop :=
  ∀ x, (s.form v).record? (.member name) = some x → s.types x = .empty

/-- The value is an instance of the class, with no attribute under the name. -/
def Instances (s : Session) (cls self : ValueId) (name : String) : Prop :=
  (∃ attributes, s.form self = .userInstance cls attributes) ∧ s.Bare self name

/-- What is done before a method is called: as in every lookup, but names stay, no attribute gets types and an instance
is made at most for a class that has none. -/
structure Idles (s t : Session) : Prop extends Peeks s t where
  names : ∀ c name x, s.findName? c name = some x → t.findName? c name = some x
  bare : ∀ v name, v.index < s.values.size → s.Bare v name → t.Bare v name
  fresh : ∀ cls self, t.exemplar? cls = some self → s.exemplar? cls = some self ∨ ∀ name, t.Instances cls self name

namespace Idles

theorem of_values (peeks : Peeks s t) (values : t.values = s.values) (scopes : t.scopes = s.scopes) : Idles s t where
  toPeeks := peeks
  names c name x h := by rwa [findName?, scope, scopes]
  bare v name _ bare x h := by
    rw [peeks.types]
    exact bare x (by rwa [form, value, values] at h)
  fresh cls self h := .inl (by rwa [exemplar?, value, values] at h)

theorem refl (s : Session) : Idles s s := of_values (.refl s) rfl rfl

theorem instances (h : Idles s t) (self_ : s.Instances cls self name) : t.Instances cls self name := by
  obtain ⟨⟨attributes, hs⟩, bare⟩ := self_
  exact ⟨h.toLinks.userInstance hs, h.bare self name (index_lt_of_form (by rw [hs]; nofun)) bare⟩

theorem trans (h : Idles s t) (g : Idles t r) : Idles s r where
  toPeeks := h.toPeeks.trans g.toPeeks
  names c name x hx := g.names c name x (h.names c name x hx)
  bare v name there bare := g.bare v name (Nat.lt_of_lt_of_le there h.size) (h.bare v name there bare)
  fresh cls self made := by
    rcases g.fresh cls self made with old | new
    · exact (h.fresh cls self old).imp_right fun new name => g.instances (new name)
    · exact .inr new

theorem addReader (x : VarId) (u : UnitId) (s : Session) : Idles s (after (addReader x u) s) :=
  of_values (.addReader x u s) rfl rfl

theorem attributeOf (v : ValueId) (name : String) (s : Session) : Idles s (after (attributeOf v name) s) := by
  have peeks := Peeks.attributeOf v name s
  rcases after_attributeOf v name s with ends | ⟨cls, attributes, hv, free, ends⟩
  · rw [ends]
    exact refl s
  · rw [ends] at peeks ⊢
    refine ⟨peeks, fun _ _ _ => id, fun w other there bare x hx => ?_, fun u self made => .inl ?_⟩
    · rw [peeks.types]
      rw [form_setValue] at hx
      split at hx
      · next own =>
        change (attributes.insert name _).find? other = some x at hx
        rw [NameMap.find?_insert] at hx
        split at hx
        · cases hx
          rw [Fills.types_of_le (x := ⟨s.records.size⟩) (Nat.le_refl _)]
        · exact bare x (by rw [own.1, hv]; exact hx)
      · exact bare x hx
    · exact (exemplar?_setValue (by rfl) u).symm.trans made

/-- An instance is made and kept. -/
theorem withInstance {value : Value} (form : value.form = .userInstance v {}) (bare : value.kept = [])
    (there : v.index < s.values.size) (peeks : Peeks s (s.withInstance v value)) : Idles s (s.withInstance v value) := by
  have forms : ∀ w, (s.withInstance v value).form w = if w.index = s.values.size then value.form else s.form w :=
    fun w => (form_withInstance there w).trans (form_push s value w)
  refine ⟨peeks, fun _ _ _ => id, fun w name old bare x hx => ?_, fun u self made => ?_⟩
  · rw [forms, if_neg (Nat.ne_of_lt old)] at hx
    exact bare x hx
  · rw [exemplar?_withInstance bare there] at made
    split at made
    · next own =>
      cases made
      have new : (s.withInstance v value).form s.nextValue = .userInstance u {} := by
        rw [forms, form, own]
        exact if_pos rfl
      refine .inr fun name => ⟨⟨{}, new⟩, fun x hx => ?_⟩
      rw [new] at hx
      cases hx
    · exact .inl made

/-- A class keeps its instance once it has been asked for. -/
theorem userInstance (hv : s.form v = .userClass c) :
    ∃ self t, Session.userInstance v s = .ok (some self) t ∧ Idles s t ∧ t.exemplar? v = some self := by
  have peeks := Looks.userInstance v s
  have there : v.index < s.values.size := index_lt_of_form (by rw [hv]; nofun)
  have rule : Session.userInstance v s =
      (do return some (← keptOr v .instance_ (newValue (s.value v).name ((s.value v).name ++ " instance") .instance_
        (.userInstance v {}))) : Analysis Found) s := by
    replace hv : (s.value v).form = .userClass c := hv
    simp only [Session.userInstance, read_run, hv]
  cases hk : s.exemplar? v with
  | some old => exact ⟨old, s, rule.trans (bind_of_ok (keptOr_run_of_some hk _)), refl s, hk⟩
  | none =>
    have run := rule.trans (bind_of_ok (keptOr_run_of_none hk there _ _ _ _))
    rw [after_of_ok run] at peeks
    exact ⟨s.nextValue, _, run, withInstance rfl rfl there peeks, by rw [exemplar?_withInstance rfl there, if_pos rfl]⟩

end Idles

def classItems (s : Session) (cls : ValueId) (name : String) : List ValueId :=
  match s.form cls with
  | .userClass c => (s.ownTypes c name).items
  | _ => []

private theorem record_of_classItems (only : s.classItems cls name = [w]) :
    ∃ c x, s.form cls = .userClass c ∧ s.findName? c.scope name = some x ∧ (s.types x).items = [w] := by
  unfold classItems at only
  split at only
  · next c hc =>
    unfold ownTypes at only
    split at only
    · next x hx => exact ⟨c, x, hc, hx, only⟩
    · cases only
  · cases only

theorem Idles.classItems (h : Idles s t) (only : s.classItems cls name = [w]) : t.classItems cls name = [w] := by
  obtain ⟨c, x, hc, hx, only⟩ := record_of_classItems only
  simp only [Session.classItems, h.toPeeks.userClass hc, ownTypes, h.names _ _ _ hx, h.types, only]

/-- What a call of the first value calls first of all is the second one: its only initializer or method, or the first
of several values. -/
inductive Hands (s : Session) (v w : ValueId) : Prop
  | initializer (bare : ∀ self, s.exemplar? v = some self → s.Instances v self "__init__")
      (only : s.classItems v "__init__" = [w])
  | method {cls : ValueId} (h : s.Instances cls v "__call__") (only : s.classItems cls "__call__" = [w])
  | multiple {rest : List ValueId} (h : s.form v = .multiple (w :: rest))

namespace Hands

private theorem idles (h : Hands s v w) (i : Idles s t) : Hands t v w := by
  cases h with
  | initializer bare only =>
    refine .initializer (fun self made => ?_) (i.classItems only)
    exact (i.fresh v self made).elim (fun old => i.instances (bare self old)) fun new => new _
  | method h only => exact .method (i.instances h) (i.classItems only)
  | multiple h => exact .multiple (i.toLinks.keeps h nofun nofun nofun)

/-- What hands calls on is read through an instance as it is. -/
theorem throughInstance (h : Hands s v w) (self : ValueId) :
    Session.throughInstance self v s = .ok (.single (some v)) s := by
  have plain : s.bindsToInstance v = false ∧ throughProperty v s = .ok (.single (some v)) s := by
    cases h with
    | initializer bare only =>
      obtain ⟨c, -, h, -⟩ := record_of_classItems only
      exact ⟨by rw [bindsToInstance, h], by rw [throughProperty, read_run, h]; rfl⟩
    | method h =>
      obtain ⟨attributes, h⟩ := h.1
      exact ⟨by rw [bindsToInstance, h], by rw [throughProperty, read_run, h]; rfl⟩
    | multiple h => exact ⟨by rw [bindsToInstance, h], by rw [throughProperty, read_run, h]; rfl⟩
  rw [Session.throughInstance, read_run, plain.1, if_neg Bool.false_ne_true]
  exact plain.2

end Hands

/-- A class yields the types that it has under a name, if there are any. -/
theorem memberOf_own {x : VarId} (hv : s.form v = .userClass c) (named : s.findName? c.scope name = some x)
    (some : (s.types x).isEmpty = false) (ask : Ask) (site : Site) :
    memberOf ask v name site s = .ok (s.types x) (after (addReader x site.unit) s) := by
  rw [memberOf, read_run, hv]
  dsimp only
  rw [userClassMember, bind_of_ok (nameIn_of_some named), bind_of_ok (readAt_run x site s), some]
  rfl

/-- A lookup of a method through an instance comes down to the class. It finds what is there, or the depth is too
small. -/
theorem member_of_instances {u : ValueId} (self_ : s.Instances cls self name) (only : s.classItems cls name = [w])
    (next : Hands s w u) (depth : Nat) (site : Site) :
    (∃ r, answerWithin depth self (.member name) site s = .error .endless r) ∨
      ∃ found t, answerWithin depth self (.member name) site s = .ok found t ∧ found.items = [w] ∧ Idles s t := by
  cases depth with
  | zero => exact .inl ⟨s, rfl⟩
  | succ depth =>
    obtain ⟨attributes, hs⟩ := self_.1
    obtain ⟨c, x, of, named, only⟩ := record_of_classItems only
    obtain ⟨a, run, there⟩ := attributeOf_instance (by rw [hs]; rfl) name
    let made := after (attributeOf self name) s
    let read := after (addReader a site.unit) made
    have idles : Idles s read := (Idles.attributeOf self name s).trans (.addReader a site.unit made)
    have empty : made.types a = .empty := ((Idles.attributeOf self name s).instances self_).2 a there
    have rule : answerWithin (depth + 1) self (.member name) site s =
        (do return (made.types a).join (← ValueSet.joinM (← answerWithin depth cls (.member name) site).items
          (throughInstance self)) : Analysis ValueSet) read := by
      show memberOf (answerWithin depth) self name site s = _
      rw [memberOf, read_run, hs]
      dsimp only
      rw [userInstanceMember, bind_of_ok run]
      dsimp only
      rw [bind_of_ok (readAt_run a site made)]
    cases depth with
    | zero => exact .inl ⟨read, rule.trans rfl⟩
    | succ depth =>
      have asks : answerWithin (depth + 1) cls (.member name) site read =
          .ok (read.types x) (after (addReader x site.unit) read) := by
        refine memberOf_own (idles.toPeeks.userClass of) (idles.names _ _ _ named) ?_ _ site
        simp [ValueSet.isEmpty, idles.types, only]
      let last := after (addReader x site.unit) read
      have whole : Idles s last := idles.trans (.addReader x site.unit read)
      have through : ValueSet.joinM [w] (throughInstance self) last =
          .ok (ValueSet.empty.join (.single (some w))) last :=
        bind_of_ok (bind_of_ok ((next.idles whole).throughInstance self))
      have ends : answerWithin (depth + 2) self (.member name) site s =
          .ok ((made.types a).join (ValueSet.empty.join (.single (some w)))) last := by
        rw [rule, bind_of_ok asks, idles.types, only]
        exact bind_of_ok through
      exact .inr ⟨_, last, ends, by rw [empty]; rfl, whole⟩

/-- The method is called with all the values that are found, of which there is one. -/
theorem callMember_endless {u : ValueId} {depth : Nat} {args : List ValueSet} {names : List String}
    (self_ : s.Instances cls self name) (only : s.classItems cls name = [w]) (next : Hands s w u)
    (rest : ∀ t, Idles s t → ∃ r, answerWithin depth w (.call args names) site t = .error .endless r) :
    ∃ r, (answerWithin depth).callMember self name args names site s = .error .endless r := by
  rcases member_of_instances self_ only next depth site with ⟨r, fails⟩ | ⟨found, t, run, all, idles⟩
  · exact ⟨r, bind_of_error fails⟩
  · obtain ⟨r, endless⟩ := rest t idles
    refine ⟨r, (bind_of_ok run).trans ?_⟩
    rw [Ask.callAll, Ask.all, all]
    exact bind_of_error (bind_of_error endless)

/-- Values that hand calls on to one another for good answer none of them. No depth is enough. -/
theorem endless_of_hands {S : Set ValueId} (onward : ∀ v ∈ S, ∃ w ∈ S, Hands s v w) (mem : v ∈ S)
    (args : List ValueSet) (names : List String) (site : Site) (depth : Nat) {t : Session} (idles : Idles s t) :
    ∃ r, answerWithin depth v (.call args names) site t = .error .endless r := by
  induction depth generalizing v t with
  | zero => exact ⟨t, rfl⟩
  | succ depth ih =>
    obtain ⟨w, more, hands⟩ := onward v mem
    obtain ⟨u, -, next⟩ := onward w more
    show ∃ r, callOf (answerWithin depth) v args names site t = .error .endless r
    rw [callOf, read_run]
    cases hands.idles idles with
    | multiple hv =>
      rw [hv]
      obtain ⟨r, endless⟩ := ih more idles
      exact ⟨r, bind_of_error (bind_of_error endless)⟩
    | method hv only =>
      have rule := callMember_endless hv only (next.idles idles) fun r later => ih more (idles.trans later)
      obtain ⟨attributes, hv⟩ := hv.1
      rw [hv]
      exact rule
    | initializer bare only =>
      obtain ⟨c, -, hv, -⟩ := record_of_classItems only
      obtain ⟨self, made, run, started, keeps⟩ := Idles.userInstance hv
      have self_ : made.Instances v self "__init__" :=
        (started.fresh v self keeps).elim (fun old => started.instances (bare self old)) fun new => new _
      obtain ⟨r, endless⟩ := callMember_endless self_ (started.classItems only) ((next.idles idles).idles started)
        fun r later => ih more ((idles.trans started).trans later)
      rw [hv]
      dsimp only
      rw [callClass, bind_of_ok run]
      exact ⟨r, bind_of_error endless⟩

end Typeflow.Session
