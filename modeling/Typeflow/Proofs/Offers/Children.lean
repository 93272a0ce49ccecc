import Typeflow.Proofs.Lookup.Project
import Typeflow.Proofs.Lookup.Total
import Typeflow.Proofs.Offers.Paths
import Typeflow.Proofs.Order
import Typeflow.Proofs.Registry.Titles
import Typeflow.Proofs.Roam.Modules

/-! The children of a module of the project: the names a part below its own, each loaded and with what its cell
holds then. -/
namespace Typeflow.Session

variable {s t q : Session} {name base : String} {r : RefId} {m : ValueId}

/-- What loading leaves alone: the cells that are loaded, the names of values and the order of names in scopes. -/
structure MayLoad (s t : Session) : Prop where
  cells : SameCells s t
  titles : Titles s t
  sorts : Sorts s t

namespace MayLoad

theorem refl (s : Session) : MayLoad s s := ⟨(Steady.refl s).toSameCells, .refl s, .refl s⟩

theorem trans (h : MayLoad s t) (g : MayLoad t q) : MayLoad s q :=
  ⟨h.cells.trans g.cells, h.titles.trans g.titles, h.sorts.trans g.sorts⟩

theorem of_roams {L : Licence} {α : Type} {m : Analysis α} {Q : α → Prop} (h : Roams L .all m Q) (s : Session) :
    MayLoad s (after m s) := by
  have touches := (h s (Realm.closed_all s)).1
  exact ⟨(Steady.of_all (fun _ _ => .of_touch) touches).toSameCells, Titles.sustains.all (fun _ _ => Titles.sustains.touch) touches,
    .of_steps (steps_of_touches touches)⟩

theorem peek? (h : MayLoad s t) (name : String) : t.peek? name = s.peek? name := by
  rw [Session.peek?, Session.peek?, h.cells.modules]

/-- A cell that is loaded keeps what it holds. -/
theorem ref (h : MayLoad s t) (celled : Celled s) (loaded : (s.ref r).loaded = true) : t.ref r = s.ref r := by
  refine (h.cells.ref celled.hosted r).resolve_right fun idle => ?_
  rw [loaded] at idle
  cases idle.1

end MayLoad

section Cell

theorem lookupModule_of_none (h : s.peek? name = none) : lookupModule name s = .ok none s := by
  simp only [lookupModule, read_run, h]
  rfl

theorem lookupModule_of_loaded (h : s.peek? name = some r) (loaded : (s.ref r).loaded = true) :
    lookupModule name s = .ok (some r) s := by
  simp only [lookupModule, read_run, h, loaded, if_true]
  rfl

/-- Whatever the host has for it, a cell that is looked up is loaded afterwards. -/
theorem lookupModule_loads (celled : Celled s) (h : s.peek? name = some r) :
    ∃ t, lookupModule name s = .ok (some r) t ∧ MayLoad s t ∧ (t.ref r).loaded = true := by
  have there := celled.placed name r h
  suffices ∃ t, lookupModule name s = .ok (some r) t ∧ (t.ref r).loaded = true by
    obtain ⟨t, run, loaded⟩ := this
    have loads : MayLoad s (after (lookupModule name) s) := .of_roams (Roams.lookupModule (L := noLicence) name) s
    rw [after_of_ok run] at loads
    exact ⟨t, run, loads, loaded⟩
  cases loaded : (s.ref r).loaded with
  | true => exact ⟨s, lookupModule_of_loaded h loaded, loaded⟩
  | false =>
    let asked := after (importObject name) s
    have imports : importObject name s = .ok (s.host.importModule name).1 asked := rfl
    simp only [lookupModule, read_run, h, loaded, Bool.false_eq_true, if_false]
    rw [bind_of_ok imports]
    cases (s.host.importModule name).1 with
    | none =>
      refine ⟨after (updateRef r fun ref => { ref with module := none, loaded := true }) asked, rfl, ?_⟩
      rw [ref_updateRef, if_pos ⟨rfl, there⟩]
    | some object =>
      obtain ⟨m, made, run, -, -, refs⟩ := Roams.moduleOfObject_run object asked
      obtain ⟨⟨⟩, installs⟩ : ∃ a, loadCell r name m made = .ok a (after (loadCell r name m) made) :=
        Total.bind (.modify _) (fun _ => .bind (.modify _) fun _ => total_installFor name) made
      refine ⟨after (loadCell r name m) made, ?_, ?_⟩
      · dsimp only
        rw [bind_of_ok run]
        have rest : (loadCell r name m >>= fun _ => (pure (some r) : Analysis (Option RefId))) made = _ :=
          bind_of_ok installs
        exact rest
      · have kept := (modules_of_furnish (furnish_loadCell r name m made)).2
        have wide : r.index < made.refs.size := by
          rw [refs]
          exact there
        rw [ref, kept, ← ref, ref_updateRef, if_pos ⟨rfl, wide⟩]

private theorem moduleNamed_of_none (h : s.peek? name = none) : moduleNamed name s = .ok none s := by
  rw [moduleNamed, bind_of_ok (lookupModule_of_none h)]
  rfl

private theorem moduleNamed_of_loaded (h : s.peek? name = some r) (loaded : (s.ref r).loaded = true) :
    moduleNamed name s = .ok (s.ref r).module s := by
  rw [moduleNamed, bind_of_ok (lookupModule_of_loaded h loaded)]
  dsimp only
  rw [read_run, ModuleRef.present, loaded, if_pos rfl]
  rfl

/-- The module that the table has under a name, loaded or not. -/
def held? (s : Session) (name : String) : Found := (s.peek? name).bind fun r => (s.ref r).module

/-- The name is free, or its cell is loaded. -/
def Fetched (s : Session) (name : String) : Prop := ∀ r, s.peek? name = some r → (s.ref r).loaded = true

theorem moduleNamed_of_fetched (h : s.Fetched name) : moduleNamed name s = .ok (s.held? name) s := by
  cases cell : s.peek? name with
  | none =>
    rw [moduleNamed_of_none cell, held?, cell]
    rfl
  | some r =>
    rw [moduleNamed_of_loaded cell (h r cell), held?, cell]
    rfl

theorem Fetched.loads (h : s.Fetched name) (celled : Celled s) (g : MayLoad s t) :
    t.Fetched name ∧ t.held? name = s.held? name := by
  refine ⟨fun r hr => ?_, ?_⟩
  · rw [g.peek?] at hr
    rw [g.ref celled (h r hr)]
    exact h r hr
  · rw [held?, held?, g.peek?]
    refine Option.bind_congr fun r hr => ?_
    rw [g.ref celled (h r hr)]

theorem moduleNamed_loads (celled : Celled s) (name : String) :
    ∃ t, moduleNamed name s = .ok (t.held? name) t ∧ MayLoad s t ∧ t.Fetched name := by
  cases cell : s.peek? name with
  | none =>
    have fetched : s.Fetched name := by
      intro r hr
      rw [cell] at hr
      cases hr
    exact ⟨s, moduleNamed_of_fetched fetched, .refl s, fetched⟩
  | some r =>
    obtain ⟨t, run, loads, loaded⟩ := lookupModule_loads celled cell
    have still : t.peek? name = some r := by rw [loads.peek?, cell]
    refine ⟨t, ?_, loads, fun other ho => ?_⟩
    · rw [moduleNamed, bind_of_ok run, held?, still]
      dsimp only
      rw [read_run, ModuleRef.present, loaded, if_pos rfl]
      rfl
    · obtain rfl : r = other := Option.some.inj (still.symm.trans ho)
      exact loaded

end Cell

/-- The children of a list are loaded one by one, and what was loaded stays. -/
theorem childrenLoad (celled : Celled s) (base : String) (children : List String) :
    ∃ t, children.filterMapM (fun child => (do
          return (← moduleNamed (base ++ "." ++ child)).map (child, ·) : Analysis (Option (String × ValueId)))) s =
        .ok (children.filterMap fun child => (t.held? (base ++ "." ++ child)).map (child, ·)) t ∧
      MayLoad s t ∧ ∀ child ∈ children, t.Fetched (base ++ "." ++ child) := by
  induction children generalizing s with
  | nil => exact ⟨s, rfl, .refl s, nofun⟩
  | cons child rest ih =>
    obtain ⟨r, first, loads, fetched⟩ := moduleNamed_loads celled (base ++ "." ++ child)
    have celledToo : Celled r := celled.same loads.cells
    obtain ⟨t, later, more, all⟩ := ih celledToo
    obtain ⟨still, held⟩ := fetched.loads celledToo more
    have head : (do return (← moduleNamed (base ++ "." ++ child)).map (child, ·) : Analysis (Option (String × ValueId))) s =
        .ok ((t.held? (base ++ "." ++ child)).map (child, ·)) r := by
      rw [bind_of_ok first, ← held]
      rfl
    refine ⟨t, ?_, loads.trans more, List.forall_mem_cons.2 ⟨still, all⟩⟩
    rw [List.filterMapM_cons, bind_of_ok head]
    cases found : (t.held? (base ++ "." ++ child)).map (child, ·) with
    | none =>
      simp only [List.filterMap_cons, found]
      exact later
    | some pair =>
      simp only [List.filterMap_cons, found]
      exact bind_of_ok later

/-- The children of a module that the table names. -/
theorem mem_children (celled : Celled s) (base child : String) :
    child ∈ s.modules.names.filterMap (Text.childName? base) ↔
      Text.IsPart child ∧ (s.peek? (base ++ "." ++ child)).isSome = true := by
  simp only [List.mem_filterMap, Text.childName?_eq_some, NameMap.names, List.mem_map]
  constructor
  · rintro ⟨_, ⟨pair, mem, rfl⟩, spelt, isPart⟩
    refine ⟨isPart, Option.isSome_iff_exists.2 ⟨pair.2, celled.ordered.find?_of_mem ?_⟩⟩
    rw [← spelt]
    exact mem
  · rintro ⟨isPart, bound⟩
    obtain ⟨r, hr⟩ := Option.isSome_iff_exists.1 bound
    exact ⟨_, ⟨_, NameMap.mem_of_find? hr, rfl⟩, rfl, isPart⟩

theorem childModules_run (celled : Celled s) {p : ProjectModule} (hm : s.form m = .module p) :
    ∃ children t, childModules m s = .ok children t ∧ MayLoad s t ∧
      (∀ child, Text.IsPart child → t.Fetched ((s.value m).name ++ "." ++ child)) ∧
      ∀ child, children.find? child =
        if Text.IsPart child then t.held? ((s.value m).name ++ "." ++ child) else none := by
  let base := (s.value m).name
  let names := s.modules.names.filterMap (Text.childName? base)
  obtain ⟨t, run, loads, fetched⟩ := childrenLoad celled base names
  let children : NameMap ValueId := .ofList (names.filterMap fun child => (t.held? (base ++ "." ++ child)).map (child, ·))
  refine ⟨children, t, ?_, loads, fun child isPart r hr => ?_, fun child => ?_⟩
  · have rule : childModules m s = childrenInTable base s := by
      rw [childModules, read_run, valueDepth, childrenWithin, read_run, show (s.value m).form = .module p from hm]
    rw [rule, childrenInTable, read_run]
    rw [bind_of_ok run]
    rfl
  · refine fetched child ((mem_children celled base child).2 ⟨isPart, ?_⟩) r hr
    rw [← loads.peek?, hr]
    rfl
  · rw [NameMap.find?_ofList_filterMap]
    simp only [names, mem_children celled base child]
    by_cases isPart : Text.IsPart child
    · rw [if_pos isPart]
      split
      · rfl
      · next free =>
        rw [held?, loads.peek?, Option.not_isSome_iff_eq_none.1 fun bound => free ⟨isPart, bound⟩]
        rfl
    · rw [if_neg isPart, if_neg fun both => isPart both.1]

/-- A module of the project yields what a name of it has, and otherwise what stands below it under the name. -/
theorem answer_module {p : ProjectModule} (hm : s.form m = .module p)
    (fetched : s.Fetched ((s.value m).name ++ "." ++ name)) (site : Site) :
    ∃ t, answer m (.member name) site s = .ok
      (((s.boundIn? m name).map s.types).getD (.single (s.held? ((s.value m).name ++ "." ++ name)))) t := by
  cases bound : s.boundIn? m name with
  | some x => exact projectMember_run _ site bound
  | none =>
    obtain ⟨t, frame, run⟩ := projectMember_below (answerWithin (questionDepth - 1)) site hm bound
    have values : t.value m = s.value m := by rw [frame]; rfl
    have again : t.Fetched ((s.value m).name ++ "." ++ name) := by
      rw [frame]
      exact fetched
    have held : t.held? ((s.value m).name ++ "." ++ name) = s.held? ((s.value m).name ++ "." ++ name) := by
      rw [frame]
      rfl
    have child : childModule m name t = .ok (s.held? ((s.value m).name ++ "." ++ name)) t := by
      rw [childModule, read_run, valueDepth, childWithin, read_run, values, show (s.value m).form = .module p from hm]
      rw [← held]
      exact moduleNamed_of_fetched again
    refine ⟨t, ?_⟩
    have whole : answer m (.member name) site s = memberOf (answerWithin (questionDepth - 1)) m name site s := rfl
    rw [whole, run, bind_of_ok child]
    rfl

end Typeflow.Session
