import Typeflow.Proofs.Offers.Children

/-! The way down a dotted name: the module of its first part, then in each module the child that the next part names.
What is not loaded on the way is loaded as it is reached. -/
namespace Typeflow.Session

open Text

variable {s t : Session} {name : String} {m : ValueId} {found : Found} {above rest : List String}

/-- A module of the table stays when others are loaded. -/
theorem MayLoad.loadedModule? (h : MayLoad s t) (celled : Celled s) (here : s.loadedModule? name = some m) :
    t.loadedModule? name = some m := by
  obtain ⟨r, bound, holds, loaded, valid, module⟩ := loadedModule?_eq_some.1 here
  have same : t.ref r = s.ref r := h.ref celled loaded
  have kind := h.cells.kind m (index_lt_of_isModule module)
  exact loadedModule?_eq_some.2 ⟨r, by rw [h.peek?, bound], by rw [same, holds], by rw [same, loaded],
    by rw [same, valid], (Value.isModule_of_kind kind).trans module⟩

/-- Of what a loaded cell holds, only a module is its module. -/
theorem loadedModule?_of_fetched (celled : Celled s) (fetched : s.Fetched name) :
    s.loadedModule? name = (s.held? name).filter fun m => (s.value m).isModule := by
  ext m
  rw [loadedModule?_eq_some, Option.filter_eq_some_iff, held?, Option.bind_eq_some_iff]
  constructor
  · rintro ⟨r, bound, holds, -, -, module⟩
    exact ⟨⟨r, bound, holds⟩, module⟩
  · rintro ⟨⟨r, bound, holds⟩, module⟩
    exact ⟨r, bound, holds, fetched r bound, (celled.valid r (celled.placed name r bound)).2 ⟨name, bound⟩, module⟩

/-- A module of the project carries its name. -/
theorem ProjectName.loaded (celled : Celled s) (h : s.ProjectName name m) : s.loadedModule? name = some m := by
  obtain ⟨⟨r, bound, holds⟩, kind⟩ := h
  refine loadedModule?_eq_some.2 ⟨r, bound, holds, celled.loaded r (isProjectModule_iff.2 ⟨m, holds, kind⟩),
    (celled.valid r (celled.placed name r bound)).2 ⟨name, bound⟩, ?_⟩
  rw [Value.isModule_eq, show (s.value m).kind = .module from kind]
  rfl

/-- A module asks the table for its child, under the name that it carries itself. -/
private theorem childModule_run (celled : Celled s) (here : s.loadedModule? name = some m) (child : String) :
    childModule m child s = moduleNamed ((s.value m).name ++ "." ++ child) s := by
  obtain ⟨r, -, holds, -, -, module⟩ := loadedModule?_eq_some.1 here
  rw [childModule, read_run, valueDepth, childWithin, read_run]
  cases hm : (s.value m).form with
  | module | builtinModule => rfl
  | multiple => exact absurd (congrArg Form.kind hm) (celled.single r m holds)
  | _ =>
    rw [Value.isModule, hm] at module
    cases module

private theorem descend_none (names : List String) (s : Session) : descend none names s = .ok none s := by
  cases names <;> rfl

private theorem descend_some (module : (s.value m).isModule = true) (child : String) (rest : List String) :
    descend (some m) (child :: rest) s = (childModule m child >>= fun found => descend found rest) s := by
  rw [descend, read_run, module]
  rfl

private theorem descend_other (module : (s.value m).isModule = false) (names : List String) :
    descend (some m) names s = .ok none s := by
  cases names <;> (rw [descend, read_run, module]; rfl)

/-- Only a module leads on. -/
private theorem descend_held (celled : Celled s) (fetched : s.Fetched name) (names : List String) :
    descend (s.held? name) names s = descend (s.loadedModule? name) names s := by
  rw [loadedModule?_of_fetched celled fetched]
  cases s.held? name with
  | none => rfl
  | some m =>
    cases module : (s.value m).isModule with
    | true => rw [Option.filter_some_pos (p := fun m => (s.value m).isModule) module]
    | false =>
      rw [Option.filter_some_neg (p := fun m => (s.value m).isModule) (by simp [module]), descend_other module,
        descend_none]

/-- The modules from one name down to another carry the names that they stand under. -/
def Carry (s : Session) (above rest : List String) : Prop :=
  ∀ names m, names <+: rest → s.loadedModule? (joinDots (above ++ names)) = some m →
    (s.value m).name = joinDots (above ++ names)

/-- The way down from a name ends at the module below, if there are modules all along it, and otherwise at nothing. -/
structure EndsAt (s : Session) (above rest : List String) (found : Found) : Prop where
  whole : (∀ names, names <+: rest → s.loadedModule? (joinDots (above ++ names)) ≠ none) →
    found = s.loadedModule? (joinDots (above ++ rest))
  broken : ∀ names, names <+: rest → s.loadedModule? (joinDots (above ++ names)) = none → found = none

namespace EndsAt

variable {child : String}

theorem here (s : Session) (above : List String) : EndsAt s above [] (s.loadedModule? (joinDots above)) where
  whole _ := by rw [List.append_nil]
  broken names below free := by rwa [List.prefix_nil.1 below, List.append_nil] at free

theorem stop (above rest : List String) (free : s.loadedModule? (joinDots (above ++ [child])) = none) :
    EndsAt s above (child :: rest) none where
  whole all := absurd free (all [child] (List.cons_prefix_cons.2 ⟨rfl, List.nil_prefix⟩))
  broken _ _ _ := rfl

theorem below (here : s.loadedModule? (joinDots above) = some m) (h : EndsAt s (above ++ [child]) rest found) :
    EndsAt s above (child :: rest) found where
  whole all := by
    rw [h.whole fun names later => ?_, List.append_assoc, List.singleton_append]
    rw [List.append_assoc, List.singleton_append]
    exact all _ (List.cons_prefix_cons.2 ⟨rfl, later⟩)
  broken names some_ free := by
    rcases List.prefix_cons_iff.1 some_ with rfl | ⟨more, rfl, later⟩
    · rw [List.append_nil, here] at free
      cases free
    · exact h.broken more later (by rwa [List.append_assoc, List.singleton_append])

end EndsAt

/-- The modules further down carry their names too. -/
private theorem Carry.below {child : String} (h : Carry s above (child :: rest)) : Carry s (above ++ [child]) rest := by
  intro names m later
  rw [List.append_assoc, List.singleton_append]
  exact h _ m (List.cons_prefix_cons.2 ⟨rfl, later⟩)

/-- Whatever the modules are called, the way has an end. If they carry their names it is the module of the whole
name, and nothing is loaded if all was. -/
theorem descend_ends (celled : Celled s) (here : s.loadedModule? name = some m) (rest : List String) :
    ∃ found r, descend (some m) rest s = .ok found r ∧ MayLoad s r ∧
      ∀ above, above ≠ [] → name = joinDots above → Carry r above rest →
        EndsAt r above rest found ∧
          ((∀ names, names <+: rest → s.Fetched (joinDots (above ++ names))) → r = s) := by
  induction rest generalizing s m name with
  | nil =>
    obtain ⟨-, -, -, -, -, module⟩ := loadedModule?_eq_some.1 here
    refine ⟨some m, s, ?_, .refl s, fun above _ spelt _ => ⟨?_, fun _ => rfl⟩⟩
    · rw [descend, read_run, module]
      rfl
    · rw [← here, spelt]
      exact .here s above
  | cons child rest ih =>
    obtain ⟨-, -, -, -, -, module⟩ := loadedModule?_eq_some.1 here
    let next := (s.value m).name ++ "." ++ child
    obtain ⟨t, run, loads, fetched⟩ := moduleNamed_loads celled next
    have celledToo : Celled t := celled.same loads.cells
    have step : descend (some m) (child :: rest) s = descend (t.loadedModule? next) rest t := by
      have asks : childModule m child s = .ok (t.held? next) t := (childModule_run celled here child).trans run
      rw [descend_some module, bind_of_ok asks, descend_held celledToo fetched]
    -- the module's own name leads on to the next part of the way
    have spells : ∀ {r : Session}, MayLoad t r → ∀ above, above ≠ [] → name = joinDots above →
        Carry r above (child :: rest) → next = joinDots (above ++ [child]) := by
      intro r later above start spelt carry
      have whole : MayLoad s r := loads.trans later
      have own := carry [] m List.nil_prefix (by rw [List.append_nil, ← spelt]; exact whole.loadedModule? celled here)
      rw [List.append_nil, whole.titles.name m (index_lt_of_isModule module)] at own
      rw [joinDots_concat start, ← own]
    have idle : ∀ above, next = joinDots (above ++ [child]) →
        (∀ names, names <+: child :: rest → s.Fetched (joinDots (above ++ names))) → t = s := by
      intro above spelt all
      have already := moduleNamed_of_fetched (all [child] (List.cons_prefix_cons.2 ⟨rfl, List.nil_prefix⟩))
      rw [← spelt, run] at already
      exact (EStateM.Result.ok.inj already).2
    cases there : t.loadedModule? next with
    | none =>
      refine ⟨none, t, ?_, loads, fun above start spelt carry => ?_⟩
      · rw [step, there, descend_none]
      · have same := spells (.refl t) above start spelt carry
        exact ⟨.stop above rest (by rw [← same]; exact there), idle above same⟩
    | some q =>
      obtain ⟨found, r, walk, more, ends⟩ := ih celledToo there
      refine ⟨found, r, ?_, loads.trans more, fun above start spelt carry => ?_⟩
      · rw [step, there, walk]
      · have same := spells more above start spelt carry
        obtain ⟨arrives, still⟩ := ends (above ++ [child]) (List.append_ne_nil_of_left_ne_nil start _) same carry.below
        refine ⟨arrives.below (spelt ▸ (loads.trans more).loadedModule? celled here), fun all => ?_⟩
        have first : t = s := idle above same all
        rw [← first]
        refine still fun names later => ?_
        rw [first, List.append_assoc, List.singleton_append]
        exact all _ (List.cons_prefix_cons.2 ⟨rfl, later⟩)

/-- The first part of a name is looked up in the table, and loaded if it has not been. -/
private theorem moduleAt_descends (celled : Celled s) (first : String) (rest : List String) :
    ∃ t, moduleAt first rest s = descend (t.held? first) rest t ∧ MayLoad s t ∧ t.Fetched first ∧
      (s.Fetched first → t = s) := by
  cases cell : s.peek? first with
  | none =>
    have fetched : s.Fetched first := fun r bound => nomatch cell.symm.trans bound
    refine ⟨s, ?_, .refl s, fetched, fun _ => rfl⟩
    rw [moduleAt, bind_of_ok (lookupModule_of_none cell), held?, cell]
    exact (descend_none rest s).symm
  | some r =>
    obtain ⟨t, run, loads, loaded⟩ := lookupModule_loads celled cell
    have celledToo : Celled t := celled.same loads.cells
    have bound : t.peek? first = some r := by rw [loads.peek?, cell]
    have valid := (celledToo.valid r (celledToo.placed first r bound)).2 ⟨first, bound⟩
    refine ⟨t, ?_, loads, fun other also => ?_, fun all => ?_⟩
    · rw [moduleAt, bind_of_ok run, held?, bound]
      dsimp only
      rw [read_run, valid, if_pos rfl]
      rfl
    · rwa [← Option.some.inj (bound.symm.trans also)]
    · rw [lookupModule_of_loaded cell (all r cell)] at run
      exact (EStateM.Result.ok.inj run).2.symm

/-- The way from the first part of a name. -/
theorem moduleAt_ends (celled : Celled s) (first : String) (rest : List String) :
    ∃ found r, moduleAt first rest s = .ok found r ∧ MayLoad s r ∧
      (Carry r [first] rest → EndsAt r [first] rest found ∧
        ((∀ names, names <+: rest → s.Fetched (joinDots ([first] ++ names))) → r = s)) := by
  have spelt : joinDots [first] = first := String.intercalate_singleton
  obtain ⟨t, step, loads, fetched⟩ := moduleAt_descends celled first rest
  have celledToo : Celled t := celled.same loads.cells
  rw [step, descend_held celledToo fetched.1]
  cases there : t.loadedModule? first with
  | none =>
    refine ⟨none, t, descend_none rest t, loads, fun _ => ⟨⟨fun all => ?_, fun _ _ _ => rfl⟩, fun all => ?_⟩⟩
    · have here := all [] List.nil_prefix
      rw [List.append_nil, spelt] at here
      exact absurd there here
    · exact fetched.2 (spelt ▸ all [] List.nil_prefix)
  | some m =>
    obtain ⟨found, r, walk, more, ends⟩ := descend_ends celledToo there rest
    refine ⟨found, r, walk, loads.trans more, fun carry => ?_⟩
    obtain ⟨arrives, still⟩ := ends [first] (List.cons_ne_nil _ _) spelt.symm carry
    refine ⟨arrives, fun all => ?_⟩
    have same : t = s := fetched.2 (spelt ▸ all [] List.nil_prefix)
    rw [← same] at all ⊢
    exact still all

end Typeflow.Session
