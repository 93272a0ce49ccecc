import Typeflow.Proofs.Registry.Steady

/-! The cells of the table of modules: how names get cells and lose them, and what a cell is worth to
those who hold it. -/
namespace Typeflow.Session

variable {s t q : Session} {name : String} {r : RefId}

theorem isProjectModule_iff :
    s.isProjectModule r = true ↔ ∃ m, (s.ref r).module = some m ∧ (s.form m).kind = .module := by
  unfold isProjectModule
  cases h : (s.ref r).module with
  | none => simp
  | some m =>
    have kind : decide ((s.value m).kind = .module) = true ↔ (s.form m).kind = .module := decide_eq_true_iff
    simpa using kind

/-- Names have cells of their own, which are valid as long as they are bound and hold no sets of
alternatives. A name that stands for no module of the project is one that the host announces. -/
structure Celled (s : Session) : Prop where
  ordered : s.modules.Ordered
  placed : ∀ name r, s.peek? name = some r → r.index < s.refs.size
  own : ∀ name other r, s.peek? name = some r → s.peek? other = some r → name = other
  valid : ∀ r, r.index < s.refs.size → ((s.ref r).valid = true ↔ ∃ name, s.peek? name = some r)
  there : ∀ r m, (s.ref r).module = some m → m.index < s.values.size
  single : ∀ r m, (s.ref r).module = some m → (s.form m).kind ≠ .multipleMembers
  loaded : ∀ r, s.isProjectModule r = true → (s.ref r).loaded = true
  announced : ∀ name r, s.peek? name = some r →
    s.isProjectModule r = true ∨ name ∈ s.host.moduleNames
  hosted : Hosted s

/-- A name gets a new cell in the place of any other. -/
structure Binds (name : String) (new : ModuleRef) (s t : Session) : Prop where
  frame : t = { s with modules := t.modules, refs := t.refs }
  ordered : s.modules.Ordered → t.modules.Ordered
  peek? : ∀ other, t.peek? other = if other = name then some ⟨s.refs.size⟩ else s.peek? other
  size : t.refs.size = s.refs.size + 1
  ref : ∀ r, t.ref r = if r.index = s.refs.size then new
    else if s.peek? name = some r then { s.ref r with valid := false } else s.ref r

/-- Names lose their cells, which become invalid. -/
structure Unbinds (gone : String → Prop) (s t : Session) : Prop where
  frame : t = { s with modules := t.modules, refs := t.refs }
  ordered : s.modules.Ordered → t.modules.Ordered
  peek? : ∀ name r, t.peek? name = some r ↔ s.peek? name = some r ∧ ¬ gone name
  size : t.refs.size = s.refs.size
  lost : ∀ r, (∃ name, gone name ∧ s.peek? name = some r) → t.ref r = { s.ref r with valid := false }
  kept : ∀ r, (¬ ∃ name, gone name ∧ s.peek? name = some r) → t.ref r = s.ref r

namespace Celled

/-- The cells that hold modules of the project are the same, and hold the same modules. -/
theorem isProjectModule (h : Celled s) (g : SameCells s t) (r : RefId) :
    t.isProjectModule r = s.isProjectModule r := by
  rw [Bool.eq_iff_iff, isProjectModule_iff, isProjectModule_iff]
  rcases g.ref h.hosted r with same | ⟨idle, -, found⟩
  · rw [same]
    refine exists_congr fun m => and_congr_right fun hm => ?_
    rw [g.kind m (h.there r m hm)]
  · constructor
    · rintro ⟨m, hm, kind⟩
      exact absurd kind (found m hm).2.1
    · intro project
      have loaded := h.loaded r (isProjectModule_iff.2 project)
      rw [idle] at loaded
      cases loaded

theorem ref_of_project (h : Celled s) (g : SameCells s t) (project : s.isProjectModule r = true) :
    t.ref r = s.ref r := by
  refine (g.ref h.hosted r).resolve_right fun ⟨idle, _⟩ => ?_
  rw [h.loaded r project] at idle
  cases idle

private theorem valid_eq (h : Celled s) (g : SameCells s t) (r : RefId) :
    (t.ref r).valid = (s.ref r).valid := by
  rcases g.ref h.hosted r with same | ⟨-, valid, -⟩
  · rw [same]
  · exact valid

theorem same (h : Celled s) (g : SameCells s t) : Celled t := by
  have peek : ∀ name, t.peek? name = s.peek? name := fun name => by
    rw [Session.peek?, Session.peek?, g.modules]
  constructor
  case ordered =>
    rw [g.modules]
    exact h.ordered
  case placed =>
    intro name r hr
    rw [g.cells]
    exact h.placed name r (peek name ▸ hr)
  case own =>
    intro name other r hn ho
    exact h.own name other r (peek name ▸ hn) (peek other ▸ ho)
  case valid =>
    intro r hr
    rw [g.cells] at hr
    rw [h.valid_eq g, h.valid r hr]
    simp only [peek]
  case there =>
    intro r m hm
    rcases g.ref h.hosted r with same | ⟨-, -, found⟩
    · rw [same] at hm
      exact Nat.lt_of_lt_of_le (h.there r m hm) g.size
    · exact (found m hm).1
  case single =>
    intro r m hm
    rcases g.ref h.hosted r with same | ⟨-, -, found⟩
    · rw [same] at hm
      rw [g.kind m (h.there r m hm)]
      exact h.single r m hm
    · exact (found m hm).2.2
  case loaded =>
    intro r hr
    rw [h.isProjectModule g] at hr
    rw [h.ref_of_project g hr]
    exact h.loaded r hr
  case announced =>
    intro name r hr
    rw [h.isProjectModule g, g.names]
    exact h.announced name r (peek name ▸ hr)
  case hosted => exact g.hosted h.hosted

end Celled

namespace Binds

variable {new : ModuleRef}

theorem values (b : Binds name new s t) : t.values = s.values := by rw [b.frame]

theorem old (b : Binds name new s t) (hr : r.index < s.refs.size) :
    t.ref r = if s.peek? name = some r then { s.ref r with valid := false } else s.ref r := by
  rw [b.ref, if_neg (Nat.ne_of_lt hr)]

/-- A cell holds what it held, apart from the new one. -/
theorem module (b : Binds name new s t) (r : RefId) :
    (t.ref r).module = if r.index = s.refs.size then new.module else (s.ref r).module := by
  rw [b.ref]
  split
  · rfl
  · split <;> rfl

theorem loaded (b : Binds name new s t) (r : RefId) :
    (t.ref r).loaded = if r.index = s.refs.size then new.loaded else (s.ref r).loaded := by
  rw [b.ref]
  split
  · rfl
  · split <;> rfl

theorem isProjectModule (b : Binds name new s t) (hr : r.index ≠ s.refs.size) :
    t.isProjectModule r = s.isProjectModule r := by
  have forms : ∀ m, t.form m = s.form m := fun m => by rw [form, form, value, value, b.values]
  rw [Bool.eq_iff_iff, isProjectModule_iff, isProjectModule_iff]
  simp only [b.module, if_neg hr, forms]

theorem celled (b : Binds name new s t) (h : Celled s) (valid : new.valid = true)
    (there : ∀ m, new.module = some m → m.index < s.values.size)
    (single : ∀ m, new.module = some m → (s.form m).kind ≠ .multipleMembers)
    (project : ∀ m, new.module = some m → (s.form m).kind = .module → new.loaded = true)
    (announced : (∃ m, new.module = some m ∧ (s.form m).kind = .module) ∨
      name ∈ s.host.moduleNames) : Celled t := by
  have forms : ∀ m, t.form m = s.form m := fun m => by rw [form, form, value, value, b.values]
  have fresh : ∀ other, s.peek? other ≠ some ⟨s.refs.size⟩ := fun other hr =>
    Nat.lt_irrefl _ (h.placed other _ hr)
  have look : ∀ other r, t.peek? other = some r ↔
      other = name ∧ r.index = s.refs.size ∨ other ≠ name ∧ s.peek? other = some r := by
    intro other r
    rw [b.peek?]
    split
    · next same =>
      obtain ⟨i⟩ := r
      simp [same, eq_comm]
    · next other => simp [other]
  have projects : ∀ r, t.isProjectModule r = true → (t.ref r).loaded = true := by
    intro r hr
    rw [b.loaded]
    split
    · next last =>
      obtain ⟨m, hm, kind⟩ := isProjectModule_iff.1 hr
      rw [b.module, if_pos last] at hm
      exact project m hm (forms m ▸ kind)
    · next old =>
      rw [b.isProjectModule old] at hr
      exact h.loaded r hr
  constructor
  case ordered => exact b.ordered h.ordered
  case placed =>
    intro other r hr
    rw [b.size]
    rcases (look other r).1 hr with ⟨-, last⟩ | ⟨-, hr⟩
    · omega
    · exact Nat.lt_succ_of_lt (h.placed other r hr)
  case own =>
    intro first second r hf hs
    rcases (look first r).1 hf with ⟨rfl, last⟩ | ⟨-, hf⟩ <;>
      rcases (look second r).1 hs with ⟨rfl, also⟩ | ⟨-, hs⟩
    · rfl
    · exact absurd last (Nat.ne_of_lt (h.placed second r hs))
    · exact absurd also (Nat.ne_of_lt (h.placed first r hf))
    · exact h.own first second r hf hs
  case valid =>
    intro r hr
    rw [b.size] at hr
    by_cases last : r.index = s.refs.size
    · rw [b.ref, if_pos last]
      exact iff_of_true valid ⟨name, (look name r).2 (.inl ⟨rfl, last⟩)⟩
    · have before : r.index < s.refs.size := by omega
      rw [b.old before]
      by_cases lost : s.peek? name = some r
      · rw [if_pos lost]
        refine iff_of_false Bool.false_ne_true ?_
        rintro ⟨other, ho⟩
        rcases (look other r).1 ho with ⟨-, new⟩ | ⟨ne, ho⟩
        · exact last new
        · exact ne (h.own other name r ho lost)
      · rw [if_neg lost, h.valid r before]
        refine exists_congr fun other => ?_
        rw [look]
        constructor
        · intro ho
          refine .inr ⟨?_, ho⟩
          rintro rfl
          exact lost ho
        · rintro (⟨-, new⟩ | ⟨-, ho⟩)
          · exact absurd new last
          · exact ho
  case there =>
    intro r m hm
    rw [b.values]
    rw [b.module] at hm
    split at hm
    · exact there m hm
    · exact h.there r m hm
  case single =>
    intro r m hm
    rw [forms]
    rw [b.module] at hm
    split at hm
    · exact single m hm
    · exact h.single r m hm
  case loaded => exact projects
  case announced =>
    intro other r hr
    have names : t.host = s.host := by rw [b.frame]
    rw [names]
    rcases (look other r).1 hr with ⟨rfl, last⟩ | ⟨-, hr⟩
    · refine announced.imp_left ?_
      rintro ⟨m, hm, kind⟩
      refine isProjectModule_iff.2 ⟨m, ?_, ?_⟩
      · rw [b.module, if_pos last, hm]
      · rw [forms, kind]
    · rw [b.isProjectModule (Nat.ne_of_lt (h.placed other r hr))]
      exact h.announced other r hr
  case hosted =>
    intro o v hv
    rw [forms, b.values]
    refine h.hosted o v ?_
    rw [b.frame] at hv
    exact hv

end Binds

namespace Unbinds

variable {gone : String → Prop}

theorem values (u : Unbinds gone s t) : t.values = s.values := by rw [u.frame]

/-- A cell holds what it held. -/
theorem holds (u : Unbinds gone s t) (r : RefId) :
    (t.ref r).module = (s.ref r).module ∧ (t.ref r).loaded = (s.ref r).loaded := by
  by_cases lost : ∃ name, gone name ∧ s.peek? name = some r
  · rw [u.lost r lost]
    exact ⟨rfl, rfl⟩
  · rw [u.kept r lost]
    exact ⟨rfl, rfl⟩

theorem isProjectModule (u : Unbinds gone s t) (r : RefId) :
    t.isProjectModule r = s.isProjectModule r := by
  have forms : ∀ m, t.form m = s.form m := fun m => by rw [form, form, value, value, u.values]
  rw [Bool.eq_iff_iff, isProjectModule_iff, isProjectModule_iff]
  simp only [(u.holds r).1, forms]

theorem celled (u : Unbinds gone s t) (h : Celled s) : Celled t := by
  have forms : ∀ m, t.form m = s.form m := fun m => by rw [form, form, value, value, u.values]
  have before : ∀ name r, t.peek? name = some r → s.peek? name = some r := fun name r hr =>
    ((u.peek? name r).1 hr).1
  constructor
  case ordered => exact u.ordered h.ordered
  case placed =>
    intro name r hr
    rw [u.size]
    exact h.placed name r (before name r hr)
  case own => exact fun name other r hn ho => h.own name other r (before _ _ hn) (before _ _ ho)
  case valid =>
    intro r hr
    rw [u.size] at hr
    by_cases lost : ∃ name, gone name ∧ s.peek? name = some r
    · rw [u.lost r lost]
      refine iff_of_false Bool.false_ne_true ?_
      rintro ⟨other, ho⟩
      obtain ⟨name, hn, bound⟩ := lost
      obtain ⟨ho, stays⟩ := (u.peek? other r).1 ho
      exact stays (h.own name other r bound ho ▸ hn)
    · rw [u.kept r lost, h.valid r hr]
      refine exists_congr fun other => ?_
      rw [u.peek?]
      exact ⟨fun ho => ⟨ho, fun hg => lost ⟨other, hg, ho⟩⟩, And.left⟩
  case there =>
    intro r m hm
    rw [u.values]
    exact h.there r m ((u.holds r).1 ▸ hm)
  case single =>
    intro r m hm
    rw [forms]
    exact h.single r m ((u.holds r).1 ▸ hm)
  case loaded =>
    intro r hr
    rw [u.isProjectModule] at hr
    rw [(u.holds r).2]
    exact h.loaded r hr
  case announced =>
    intro name r hr
    have names : t.host = s.host := by rw [u.frame]
    rw [names, u.isProjectModule]
    exact h.announced name r (before name r hr)
  case hosted =>
    intro o v hv
    rw [forms, u.values]
    refine h.hosted o v ?_
    rw [u.frame] at hv
    exact hv

end Unbinds

/-- Putting a new cell under a name. -/
theorem binds_setModule (h : Celled s) (name : String) (new : ModuleRef) :
    Binds name new s (after (do setModule name (← newRef new)) s) := by
  let r : RefId := ⟨s.refs.size⟩
  let pushed : Session := { s with refs := s.refs.push new }
  have run : after (do setModule name (← newRef new)) s = after (setModule name r) pushed := rfl
  have look : ∀ q, pushed.ref q = if q.index = s.refs.size then new else s.ref q := by
    intro q
    simp only [Session.ref, pushed, getD_push]
  rw [run]
  cases hp : s.peek? name with
  | none =>
    have ends : after (setModule name r) pushed =
        { pushed with modules := pushed.modules.insert name r } := by
      simp only [setModule, after_read, show pushed.peek? name = none from hp]
      rfl
    rw [ends]
    refine ⟨rfl, fun ordered => ordered.insert name r, fun _ => NameMap.find?_insert _ _ _ _,
      by simp [pushed], fun q => ?_⟩
    simp only [hp, reduceCtorEq, if_false]
    exact look q
  | some old =>
    have there := h.placed name old hp
    have ne : old ≠ r := fun same => by
      rw [same] at there
      exact Nat.lt_irrefl _ there
    let invalid := after (invalidate old) pushed
    have ends : after (setModule name r) pushed =
        { invalid with modules := invalid.modules.insert name r } := by
      simp only [setModule, after_read, show pushed.peek? name = some old from hp, if_pos ne]
      rfl
    have wide : old.index < pushed.refs.size := by simpa [pushed] using Nat.lt_succ_of_lt there
    rw [ends]
    refine ⟨rfl, fun ordered => ordered.insert name r, fun _ => NameMap.find?_insert _ _ _ _, ?_,
      fun q => ?_⟩
    · change (pushed.refs.modify old.index _).size = _
      simp [pushed]
    · have turned : invalid.ref q = if q = old ∧ old.index < pushed.refs.size then
          { pushed.ref q with valid := false } else pushed.ref q := ref_updateRef pushed old q _
      change invalid.ref q = _
      rw [turned, look, hp]
      by_cases last : q.index = s.refs.size
      · have apart : q ≠ old := by
          rintro rfl
          exact Nat.ne_of_lt there last
        rw [if_neg fun both => apart both.1, if_pos last, if_pos last]
      · rw [if_neg last, if_neg last]
        by_cases same : q = old
        · rw [same, if_pos ⟨rfl, wide⟩, if_pos rfl]
        · rw [if_neg fun both => same both.1, if_neg fun eq => same (Option.some.inj eq).symm]

private theorem removeName_run (hp : s.peek? name = some r) :
    removeName name (some r) s = .ok true { s with modules := s.modules.erase name } := by
  simp only [removeName, read_run, hp, ne_eq, not_true_eq_false, if_false]
  rfl

/-- The name is bound to a cell that holds the module. -/
def StandsFor (s : Session) (name : String) (m : ValueId) : Prop :=
  ∃ r, s.peek? name = some r ∧ (s.ref r).module = some m

/-- A name that stands for the module loses its cell. -/
theorem unbinds_forgetName (h : Celled s) (name : String) (m : ValueId) :
    Unbinds (fun other => other = name ∧ name.isEmpty = false ∧ s.StandsFor name m) s
      (after (forgetName name m) s) := by
  by_cases gone : name.isEmpty = false ∧ s.StandsFor name m
  · obtain ⟨named, r, hp, holds⟩ := gone
    let erased : Session := { s with modules := s.modules.erase name }
    have run : after (forgetName name m) s = after (invalidate r) erased := by
      simp only [forgetName, named, Bool.false_eq_true, if_false, after_read, hp, if_pos holds]
      exact after_bind_of_ok (removeName_run hp)
    have ref : ∀ q, (after (invalidate r) erased).ref q =
        if q = r ∧ r.index < s.refs.size then { s.ref q with valid := false } else s.ref q :=
      fun q => ref_updateRef erased r q _
    rw [run]
    refine ⟨rfl, fun ordered => ordered.filter _, fun other q => ?_, Array.size_modify, ?_, ?_⟩
    · have look : (after (invalidate r) erased).peek? other =
          if other = name then none else s.peek? other := NameMap.find?_erase _ _ _
      have lost : s.StandsFor name m := ⟨r, hp, holds⟩
      rw [look]
      by_cases same : other = name <;> simp [same, named, lost]
    · rintro q ⟨other, ⟨rfl, -⟩, hq⟩
      obtain rfl : r = q := Option.some.inj (hp.symm.trans hq)
      rw [ref, if_pos ⟨rfl, h.placed other r hp⟩]
    · intro q kept
      rw [ref, if_neg]
      rintro ⟨rfl, -⟩
      exact kept ⟨name, ⟨rfl, named, q, hp, holds⟩, hp⟩
  · have run : after (forgetName name m) s = s := by
      cases named : name.isEmpty with
      | true =>
        simp only [forgetName, named, if_true]
        rfl
      | false =>
        simp only [forgetName, named, Bool.false_eq_true, if_false, after_read]
        cases hp : s.peek? name with
        | none => rfl
        | some r =>
          have other : (s.ref r).module ≠ some m := fun holds => gone ⟨named, r, hp, holds⟩
          simp only [after_read, if_neg other]
          rfl
    rw [run]
    refine ⟨rfl, id, fun other r => ?_, rfl, fun r lost => ?_, fun _ _ => rfl⟩
    · exact ⟨fun hr => ⟨hr, fun lost => gone lost.2⟩, And.left⟩
    · obtain ⟨_, lost, _⟩ := lost
      exact absurd lost.2 gone

end Typeflow.Session
