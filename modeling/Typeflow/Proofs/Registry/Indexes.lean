import Typeflow.Proofs.Registry.Additions
import Typeflow.Proofs.Registry.Validity

/-! The table of names and the index of paths follow what is added and removed, in every history. -/
namespace Typeflow.Session

variable {s t q : Session} {added : Array Addition} {name path : String} {m : ValueId}

/-- The name is bound to a module of the project. -/
def ProjectName (s : Session) (name : String) (m : ValueId) : Prop :=
  s.StandsFor name m ∧ (s.form m).kind = .module

private theorem projectName_iff :
    s.ProjectName name m ↔
      ∃ r, s.peek? name = some r ∧ s.isProjectModule r = true ∧ (s.ref r).module = some m := by
  simp only [ProjectName, StandsFor, isProjectModule_iff]
  constructor
  · rintro ⟨⟨r, hr, hm⟩, kind⟩
    exact ⟨r, hr, ⟨m, hm, kind⟩, hm⟩
  · rintro ⟨r, hr, ⟨n, hn, kind⟩, hm⟩
    obtain rfl : n = m := Option.some.inj (hn.symm.trans hm)
    exact ⟨⟨r, hr, hm⟩, kind⟩

theorem projectName_of_same (h : Celled s) (g : SameCells s t) :
    t.ProjectName name m ↔ s.ProjectName name m := by
  rw [projectName_iff, projectName_iff]
  refine exists_congr fun r => ?_
  rw [peek?, peek?, g.modules, h.isProjectModule g]
  refine and_congr_right fun _ => and_congr_right fun project => ?_
  rw [h.ref_of_project g project]

theorem projectName_of_binds {new : ModuleRef} {v : ValueId} (h : Celled s) (b : Binds name new s t)
    (holds : new.module = some v) (kind : (s.form v).kind = .module) (k : String) :
    t.ProjectName k m ↔ if k = name then m = v else s.ProjectName k m := by
  have forms : ∀ w, t.form w = s.form w := fun w => by rw [form, form, value, value, b.values]
  by_cases same : k = name
  · have bound : t.peek? k = some ⟨s.refs.size⟩ := by rw [b.peek?, if_pos same]
    have cell : (t.ref ⟨s.refs.size⟩).module = some v := by rw [b.module, if_pos rfl, holds]
    rw [if_pos same]
    constructor
    · rintro ⟨⟨r, hr, hm⟩, -⟩
      obtain rfl : _ = r := Option.some.inj (bound.symm.trans hr)
      exact Option.some.inj (hm.symm.trans cell)
    · rintro rfl
      exact ⟨⟨_, bound, cell⟩, by rw [forms, kind]⟩
  · have bound : t.peek? k = s.peek? k := by rw [b.peek?, if_neg same]
    rw [if_neg same, ProjectName, ProjectName, forms]
    refine and_congr_left fun _ => exists_congr fun r => ?_
    rw [bound]
    refine and_congr_right fun hr => ?_
    rw [b.module, if_neg (Nat.ne_of_lt (h.placed k r hr))]

private theorem projectName_of_unbinds {gone : String → Prop} (u : Unbinds gone s t) :
    t.ProjectName name m ↔ s.ProjectName name m ∧ ¬ gone name := by
  have forms : ∀ w, t.form w = s.form w := fun w => by rw [form, form, value, value, u.values]
  simp only [ProjectName, StandsFor, u.peek?, (u.holds _).1, forms]
  constructor
  · rintro ⟨⟨r, ⟨hr, stays⟩, hm⟩, kind⟩
    exact ⟨⟨⟨r, hr, hm⟩, kind⟩, stays⟩
  · rintro ⟨⟨⟨r, hr, hm⟩, kind⟩, stays⟩
    exact ⟨⟨r, ⟨hr, stays⟩, hm⟩, kind⟩

theorem projectName_of_resets (h : Resets s t) : t.ProjectName name m ↔ s.ProjectName name m := by
  have forms : ∀ w, t.form w = s.form w := fun w => by rw [form, form, value, value, h.frame]
  constructor
  · rintro ⟨⟨r, hr, hm⟩, kind⟩
    rw [forms] at kind
    rcases h.bound name r hr with ⟨old, project⟩ | ⟨-, empty⟩
    · rw [(h.project name r old project).2] at hm
      exact ⟨⟨r, old, hm⟩, kind⟩
    · rw [empty] at hm
      cases hm
  · rintro ⟨⟨r, hr, hm⟩, kind⟩
    obtain ⟨stays, same⟩ := h.project name r hr (isProjectModule_iff.2 ⟨m, hm, kind⟩)
    exact ⟨⟨r, stays, by rw [same, hm]⟩, by rw [forms, kind]⟩

/-- Entries have modules of their own, and both indexes follow what was added. -/
structure Indexed (added : Array Addition) (s : Session) : Prop where
  celled : Celled s
  booked : s.entries.map Entry.addition = added
  made : ∀ e : EntryId, e.index < added.size →
    (s.entry e).module.index < s.values.size ∧ (s.form (s.entry e).module).kind = .module
  own : ∀ e f : EntryId, e.index < added.size → f.index < added.size →
    (s.entry e).module = (s.entry f).module → e = f
  paths : Follows added (fun e => (s.entry e).module) (·.path) fun path m =>
    s.modulesByPath.find? path = some m
  names : Follows added (fun e => (s.entry e).module) (·.name) s.ProjectName

namespace Indexed

theorem size (h : Indexed added s) : s.entries.size = added.size := by
  rw [← h.booked, Array.size_map]

theorem addition (h : Indexed added s) {e : EntryId} (he : e.index < added.size) :
    added[e.index]? = some (s.entry e).addition := by
  have wide : e.index < s.entries.size := by rw [h.size]; exact he
  simp [← h.booked, entry, wide]

theorem steady (h : Indexed added s) (g : Steady s t) : Indexed added t := by
  have label := label_of_outside g.outside
  have modules : ∀ e, (t.entry e).module = (s.entry e).module := fun e =>
    congrArg (·.2.2.1) (label e)
  have paths : t.modulesByPath = s.modulesByPath := congrArg (·.2.1) g.outside
  have booked : t.entries.map Entry.addition = s.entries.map Entry.addition := by
    have labels : t.entries.map Entry.label = s.entries.map Entry.label := congrArg (·.2.2) g.outside
    have read : ∀ xs : Array Entry, xs.map Entry.addition =
        (xs.map Entry.label).map fun label => ⟨label.1, label.2.1, label.2.2.2⟩ := by
      intro xs
      rw [Array.map_map]
      rfl
    rw [read, read, labels]
  constructor
  case celled => exact h.celled.same g.toSameCells
  case booked => rw [booked, h.booked]
  case made =>
    intro e he
    obtain ⟨there, kind⟩ := h.made e he
    rw [modules, g.kind _ there]
    exact ⟨Nat.lt_of_lt_of_le there g.size, kind⟩
  case own =>
    intro e f he hf same
    rw [modules, modules] at same
    exact h.own e f he hf same
  case paths =>
    simp only [modules, paths]
    exact h.paths
  case names =>
    simp only [modules]
    intro k m
    rw [projectName_of_same h.celled g.toSameCells]
    exact h.names k m

/-- A new entry, whose name may have got a cell. -/
theorem listed (h : Indexed added s) (celled : Celled q)
    (frame : q = { s.withListed name path with modules := q.modules, refs := q.refs })
    (names : ∀ k m, q.ProjectName k m ↔
      if k = name ∧ k ≠ "" then m = ⟨s.values.size⟩ else s.ProjectName k m) :
    Indexed (added.push { name, path }) q := by
  let new : Entry := { name, path, module := ⟨s.values.size⟩ }
  have entries : q.entries = s.entries.push new := by
    rw [frame]
    simp only [withListed]
    split <;> rfl
  have paths : ∀ k, q.modulesByPath.find? k =
      if k = path ∧ k ≠ "" then some ⟨s.values.size⟩ else s.modulesByPath.find? k := by
    intro k
    rw [frame]
    simp only [withListed]
    split
    · next empty =>
      have nothing : ¬ (k = path ∧ k ≠ "") := by
        rintro ⟨rfl, named⟩
        exact named (String.isEmpty_iff.1 empty)
      rw [if_neg nothing]
      rfl
    · next named =>
      have asked : k = path ∧ k ≠ "" ↔ k = path := by
        refine and_iff_left_of_imp ?_
        rintro rfl empty
        exact named (String.isEmpty_iff.2 empty)
      simp only [asked]
      exact NameMap.find?_insert _ _ _ _
  have look : ∀ e, q.entry e = if e.index = added.size then new else s.entry e := by
    intro e
    rw [entry, entries, getD_push, h.size]
    rfl
  have old : ∀ e : EntryId, e.index < added.size → (q.entry e).module = (s.entry e).module := by
    intro e he
    rw [look, if_neg (Nat.ne_of_lt he)]
  have last : (q.entry ⟨added.size⟩).module = ⟨s.values.size⟩ := by
    rw [look, if_pos rfl]
  have forms : ∀ v, q.form v =
      if v.index = s.values.size then .module ⟨⟨s.entries.size⟩, ⟨s.scopes.size⟩⟩ else s.form v := by
    intro v
    rw [← form_withListed s name path, frame]
    rfl
  have size : q.values.size = s.values.size + 1 := by
    rw [frame]
    exact size_withListed s name path
  have cases : ∀ e : EntryId, e.index < (added.push { name, path }).size →
      e = ⟨added.size⟩ ∨ e.index < added.size := by
    intro e he
    rw [Array.size_push] at he
    rcases Nat.lt_succ_iff_lt_or_eq.1 he with before | at_end
    · exact .inr before
    · exact .inl (EntryId.index_inj.1 at_end)
  have apart : ∀ e : EntryId, e.index < added.size → (s.entry e).module ≠ ⟨s.values.size⟩ := by
    intro e he same
    have there := (h.made e he).1
    rw [same] at there
    exact Nat.lt_irrefl _ there
  constructor
  case celled => exact celled
  case booked =>
    rw [entries, Array.map_push, h.booked]
    rfl
  case made =>
    intro e he
    rw [size]
    rcases cases e he with rfl | before
    · rw [last, forms, if_pos rfl]
      exact ⟨Nat.lt_succ_self _, rfl⟩
    · obtain ⟨there, kind⟩ := h.made e before
      rw [old e before, forms, if_neg (Nat.ne_of_lt there)]
      exact ⟨Nat.lt_succ_of_lt there, kind⟩
  case own =>
    intro e f he hf same
    rcases cases e he with rfl | before <;> rcases cases f hf with rfl | also
    · rfl
    · rw [last, old f also] at same
      exact absurd same.symm (apart f also)
    · rw [last, old e before] at same
      exact absurd same (apart e before)
    · rw [old e before, old f also] at same
      exact h.own e f before also same
  case paths =>
    refine h.paths.push _ rfl old fun k m => ?_
    rw [paths, last]
    split
    · exact ⟨fun eq => (Option.some.inj eq).symm, fun eq => eq ▸ rfl⟩
    · exact Iff.rfl
  case names =>
    refine h.names.push _ rfl old fun k m => ?_
    rw [names, last]

theorem addModule (h : Indexed added s) (name path : String) :
    Indexed (added.push { name, path }) (after (addModule name path) s) := by
  have same := sameCells_withListed s name path
  have listed := h.celled.same same
  rcases addModule_cases h.celled name path with ⟨empty, steady⟩ | ⟨named, q, binds, steady⟩
  · refine (h.listed listed rfl fun k m => ?_).steady steady
    have nothing : ¬ (k = name ∧ k ≠ "") := by
      rintro ⟨rfl, named⟩
      exact named empty
    rw [if_neg nothing, projectName_of_same h.celled same]
  · have module : (s.withListed name path).form ⟨s.values.size⟩ =
        .module ⟨⟨s.entries.size⟩, ⟨s.scopes.size⟩⟩ := by
      rw [form_withListed, if_pos rfl]
    have kind : ((s.withListed name path).form ⟨s.values.size⟩).kind = .module := by
      rw [module]
      rfl
    have there : s.values.size < (s.withListed name path).values.size := by
      rw [size_withListed]
      exact Nat.lt_succ_self _
    have celled : Celled q := (Turnover.of_binds listed kind there binds).celled
    refine (h.listed celled binds.frame fun k m => ?_).steady steady
    have asked : k = name ∧ k ≠ "" ↔ k = name := by
      refine and_iff_left_of_imp ?_
      rintro rfl
      exact named
    simp only [projectName_of_binds listed binds rfl kind, asked, projectName_of_same h.celled same]

/-- The path of a removed module is forgotten if it led to the module. -/
theorem path_unlisted (h : Indexed added s) (e : EntryId) (k : String) (m : ValueId) :
    (s.unlisted e).modulesByPath.find? k = some m ↔
      s.modulesByPath.find? k = some m ∧ ¬ (k = (s.entry e).path ∧ m = (s.entry e).module) := by
  let gone : Session := after (forgetPath (s.entry e).path (s.entry e).module) s
  have celled : Celled gone := (Turnover.forgetPath h.celled _ _).celled
  have paths : (s.unlisted e).modulesByPath = gone.modulesByPath := by
    have frame := (unbinds_forgetName celled (s.entry e).name (s.entry e).module).frame
    change (after (forgetName _ _) gone).modulesByPath = _
    rw [frame]
  rw [paths]
  simp only [gone, forgetPath, after_modify]
  split
  · next leads =>
    have look := NameMap.find?_erase s.modulesByPath (s.entry e).path k
    simp only [look]
    by_cases same : k = (s.entry e).path
    · rw [if_pos same, same, leads]
      simp [eq_comm]
    · simp [same]
  · next other =>
    refine (and_iff_left_of_imp ?_).symm
    rintro leads ⟨rfl, rfl⟩
    exact other leads

/-- The name of a removed module is forgotten if it stood for the module. -/
theorem name_unlisted (h : Indexed added s) (e : EntryId) (k : String) (m : ValueId) :
    (s.unlisted e).ProjectName k m ↔
      s.ProjectName k m ∧ ¬ (k = (s.entry e).name ∧ m = (s.entry e).module) := by
  let gone : Session := after (forgetPath (s.entry e).path (s.entry e).module) s
  have celled : Celled gone := (Turnover.forgetPath h.celled _ _).celled
  have frame : gone = { s with modulesByPath := gone.modulesByPath } := by
    simp only [gone, forgetPath, after_modify]
    split <;> rfl
  have same : ∀ k m, gone.ProjectName k m ↔ s.ProjectName k m := fun k m => by
    rw [frame]
    exact Iff.rfl
  have stands : ∀ k m, gone.StandsFor k m ↔ s.StandsFor k m := fun k m => by
    rw [frame]
    exact Iff.rfl
  let forgotten : Session := after (forgetName (s.entry e).name (s.entry e).module) gone
  have unbound : forgotten.ProjectName k m ↔ gone.ProjectName k m ∧
      ¬ (k = (s.entry e).name ∧ (s.entry e).name.isEmpty = false ∧
        gone.StandsFor (s.entry e).name (s.entry e).module) :=
    projectName_of_unbinds (unbinds_forgetName celled (s.entry e).name (s.entry e).module)
  have marked : (s.unlisted e).ProjectName k m ↔
      (after (forgetName (s.entry e).name (s.entry e).module) gone).ProjectName k m := Iff.rfl
  rw [marked, unbound, same, stands]
  refine and_congr_right fun bound => not_congr (and_congr_right ?_)
  rintro rfl
  have named : (s.entry e).name.isEmpty = false := by
    have nonempty := ((h.names _ m).1 bound).1
    rw [Bool.eq_false_iff, ne_eq, String.isEmpty_iff]
    exact nonempty
  constructor
  · rintro ⟨-, r, hr, hm⟩
    obtain ⟨⟨q, hq, hn⟩, -⟩ := bound
    obtain rfl : r = q := Option.some.inj (hr.symm.trans hq)
    exact Option.some.inj (hn.symm.trans hm)
  · rintro rfl
    exact ⟨named, bound.1⟩

private theorem frame_unlisted (h : Celled s) (e : EntryId) : ∃ modules refs paths,
    s.unlisted e = { s with
      modules
      refs
      modulesByPath := paths
      entries := s.entries.modify e.index fun entry => { entry with removed := true, unit := none } } := by
  have celled := (Turnover.forgetPath h (s.entry e).path (s.entry e).module).celled
  obtain ⟨paths, first⟩ : ∃ paths, after (forgetPath (s.entry e).path (s.entry e).module) s =
      { s with modulesByPath := paths } := by
    rw [forgetPath, after_modify]
    split
    · exact ⟨_, rfl⟩
    · exact ⟨_, rfl⟩
  obtain ⟨modules, refs, second⟩ : ∃ modules refs,
      after (forgetName (s.entry e).name (s.entry e).module)
        (after (forgetPath (s.entry e).path (s.entry e).module) s) =
      { after (forgetPath (s.entry e).path (s.entry e).module) s with modules, refs } :=
    ⟨_, _, (unbinds_forgetName celled _ _).frame⟩
  refine ⟨modules, refs, paths, ?_⟩
  rw [Session.unlisted, second, first]
  rfl

theorem unlisted (h : Indexed added s) {e : EntryId} (he : e.index < added.size) :
    Indexed (added.modify e.index fun a => { a with removed := true }) (s.unlisted e) := by
  obtain ⟨_, _, _, frame⟩ := frame_unlisted h.celled e
  have entries : (s.unlisted e).entries =
      s.entries.modify e.index fun entry => { entry with removed := true, unit := none } := by
    rw [frame]
  have modules : ∀ f, ((s.unlisted e).entry f).module = (s.entry f).module := by
    intro f
    have look := entry_modify s e f fun entry => { entry with removed := true, unit := none }
    rw [frame]
    refine (congrArg Entry.module look).trans ?_
    split <;> rfl
  have own : ∀ f : EntryId, f.index < added.size → (s.entry f).module = (s.entry e).module → f = e :=
    fun f hf => h.own f e hf he
  have there := h.addition he
  constructor
  case celled => exact (Turnover.unlisted h.celled e).celled
  case booked =>
    rw [entries, ← h.booked]
    refine Array.ext (by simp) fun i _ _ => ?_
    simp only [Array.getElem_map, Array.getElem_modify]
    split <;> rfl
  case made =>
    intro f hf
    rw [Array.size_modify] at hf
    rw [modules, frame]
    exact h.made f hf
  case own =>
    intro f g hf hg same
    rw [Array.size_modify] at hf hg
    rw [modules, modules] at same
    exact h.own f g hf hg same
  case paths =>
    simp only [modules]
    exact h.paths.remove (fun _ => rfl) there own (h.path_unlisted e)
  case names =>
    simp only [modules]
    exact h.names.remove (fun _ => rfl) there own (h.name_unlisted e)

/-- A cell that holds another module stays as it is, and so do its names. -/
theorem cell_unlisted (h : Celled s) {e : EntryId} {r : RefId}
    (other : (s.ref r).module ≠ some (s.entry e).module) :
    (∀ name, (s.unlisted e).peek? name = some r ↔ s.peek? name = some r) ∧
      (s.unlisted e).ref r = s.ref r := by
  let gone : Session := after (forgetPath (s.entry e).path (s.entry e).module) s
  have celled : Celled gone := (Turnover.forgetPath h _ _).celled
  have unbinds := unbinds_forgetName celled (s.entry e).name (s.entry e).module
  obtain ⟨peek, ref⟩ : (∀ name, gone.peek? name = s.peek? name) ∧ ∀ r, gone.ref r = s.ref r := by
    simp only [gone, forgetPath, after_modify]
    split
    · exact ⟨fun _ => rfl, fun _ => rfl⟩
    · exact ⟨fun _ => rfl, fun _ => rfl⟩
  have stays : ∀ name, s.peek? name = some r →
      ¬ (name = (s.entry e).name ∧ (s.entry e).name.isEmpty = false ∧
        gone.StandsFor (s.entry e).name (s.entry e).module) := by
    rintro name hr ⟨rfl, -, q, hq, holds⟩
    rw [peek] at hq
    rw [ref] at holds
    obtain rfl : r = q := Option.some.inj (hr.symm.trans hq)
    exact other holds
  constructor
  · intro name
    have marked : (s.unlisted e).peek? name = some r ↔
        (after (forgetName (s.entry e).name (s.entry e).module) gone).peek? name = some r := Iff.rfl
    rw [marked, unbinds.peek?, peek]
    exact and_iff_left_of_imp (stays name)
  · refine (unbinds.kept r ?_).trans (ref r)
    rintro ⟨name, lost, hr⟩
    exact stays name (peek name ▸ hr) lost

/-- There is nothing to forget about an entry that was never made. -/
theorem unlisted_of_le (h : Indexed added s) {e : EntryId} (he : added.size ≤ e.index) :
    s.unlisted e = s := by
  have empty : s.entry e = default := entry_of_le (h.size ▸ he)
  have path : after (forgetPath (default : Entry).path (default : Entry).module) s = s := by
    rw [forgetPath, after_modify, if_neg]
    intro leads
    exact ((h.paths _ _).1 leads).1 rfl
  have entries : s.entries.modify e.index (fun entry => { entry with removed := true, unit := none }) =
      s.entries := by
    refine Array.ext (by simp) fun i hi hs => ?_
    rw [Array.getElem_modify, if_neg]
    have := h.size
    omega
  rw [Session.unlisted, empty, path]
  change withoutEntry s e = s
  rw [withoutEntry, entries]

theorem removeModule (h : Indexed added s) (e : EntryId) :
    Indexed (added.modify e.index fun a => { a with removed := true })
      (after (removeModule (some e)) s) := by
  by_cases he : e.index < added.size
  · rcases removeModule_cases e s with ⟨removed, run⟩ | ⟨-, steady⟩
    · have same : added.modify e.index (fun a => { a with removed := true }) = added := by
        refine Array.ext (by simp) fun i hi hs => ?_
        rw [Array.getElem_modify]
        split
        · next eq =>
          subst eq
          have there := h.addition he
          rw [Array.getElem?_eq_getElem he] at there
          rw [Option.some.inj there, Entry.addition, removed]
        · rfl
      rw [same, after_of_ok run]
      exact h
    · exact (h.unlisted he).steady steady
  · have same : added.modify e.index (fun a => { a with removed := true }) = added := by
      refine Array.ext (by simp) fun i hi hs => ?_
      rw [Array.getElem_modify, if_neg]
      omega
    rw [same]
    rcases removeModule_cases e s with ⟨-, run⟩ | ⟨-, steady⟩
    · rw [after_of_ok run]
      exact h
    · rw [h.unlisted_of_le (Nat.le_of_not_lt he)] at steady
      exact h.steady steady

/-- Removing a module leaves what the indexes have for another one. -/
theorem bindings_kept (h : Indexed added s) {e f : EntryId} (other : f ≠ e) (hf : f.index < added.size) :
    let q := after (Session.removeModule (some e)) s
    (∀ path, q.modulesByPath.find? path = some (s.entry f).module ↔
      s.modulesByPath.find? path = some (s.entry f).module) ∧
    ∀ r, (s.ref r).module = some (s.entry f).module →
      (∀ name, q.peek? name = some r ↔ s.peek? name = some r) ∧ q.ref r = s.ref r := by
  intro q
  rcases removeModule_cases e s with ⟨-, run⟩ | ⟨-, steady⟩
  · rw [show q = s from after_of_ok run]
    exact ⟨fun _ => Iff.rfl, fun _ _ => ⟨fun _ => Iff.rfl, rfl⟩⟩
  · have apart : e.index < added.size → (s.entry f).module ≠ (s.entry e).module := fun he same =>
      other (h.own f e hf he same)
    have celled : Celled (s.unlisted e) := (Turnover.unlisted h.celled e).celled
    have paths : q.modulesByPath = (s.unlisted e).modulesByPath := congrArg (·.2.1) steady.outside
    have peek : ∀ name, q.peek? name = (s.unlisted e).peek? name := fun name => by
      rw [peek?, peek?, steady.modules]
    constructor
    · intro path
      rw [paths]
      by_cases he : e.index < added.size
      · rw [h.path_unlisted]
        exact and_iff_left_of_imp fun _ both => apart he both.2
      · rw [h.unlisted_of_le (Nat.le_of_not_lt he)]
    · intro r hr
      have project : s.isProjectModule r = true := isProjectModule_iff.2 ⟨_, hr, (h.made f hf).2⟩
      obtain ⟨names, cell⟩ : (∀ name, (s.unlisted e).peek? name = some r ↔ s.peek? name = some r) ∧
          (s.unlisted e).ref r = s.ref r := by
        by_cases he : e.index < added.size
        · apply cell_unlisted h.celled
          rw [hr]
          exact fun same => apart he (Option.some.inj same)
        · rw [h.unlisted_of_le (Nat.le_of_not_lt he)]
          exact ⟨fun _ => Iff.rfl, rfl⟩
      have still : (s.unlisted e).isProjectModule r = true := by
        obtain ⟨_, _, _, frame⟩ := frame_unlisted h.celled e
        refine isProjectModule_iff.2 ⟨(s.entry f).module, by rw [cell, hr], ?_⟩
        rw [frame]
        exact (h.made f hf).2
      constructor
      · intro name
        rw [peek]
        exact names name
      · rw [celled.ref_of_project steady.toSameCells still, cell]

theorem resetModules (h : Indexed added s) : Indexed added (after resetModules s) := by
  have resets := resets_resetModules h.celled
  have entries : (after Session.resetModules s).entries = s.entries := by rw [resets.frame]
  have entry : ∀ e, (after Session.resetModules s).entry e = s.entry e := fun e => by
    rw [Session.entry, Session.entry, entries]
  constructor
  case celled => exact resets.celled
  case booked => rw [entries, h.booked]
  case made =>
    intro e he
    rw [entry, resets.frame]
    exact h.made e he
  case own =>
    simp only [entry]
    exact h.own
  case paths =>
    simp only [entry]
    rw [resets.frame]
    exact h.paths
  case names =>
    simp only [entry]
    intro k m
    rw [projectName_of_resets resets]
    exact h.names k m

theorem reload (h : Indexed added s) : Indexed added (after reload s) :=
  h.resetModules.steady (steady_reload s)

theorem operation (h : Indexed added s) (o : Operation) : Indexed (o.record added) (after o.run s) := by
  have evaluation : o.evaluates → Indexed added (after o.run s) := fun g =>
    h.steady (.of_evaluates g s)
  cases o with
  | addModule name path =>
    have ends : after (Operation.run (.addModule name path)) s = after (Session.addModule name path) s :=
      after_ignore _ s
    rw [ends]
    exact h.addModule name path
  | removeModule e =>
    cases e with
    | none => exact h
    | some e => exact h.removeModule e
  | reload => exact h.reload
  | specialize request => exact h.steady (.of_within (Steady.refreshes.fulfil request) s)
  | installFor name => exact h.steady (.of_within (Steady.refreshes.installFor name) s)
  | installEvery => exact h.steady (.of_within Steady.refreshes.installEvery s)
  | _ => exact evaluation trivial

theorem afterAll (h : Indexed added s) (ops : List Operation) :
    Indexed (ops.foldl (fun added o => o.record added) added) (afterAll ops s) := by
  induction ops generalizing added s with
  | nil => exact h
  | cons o rest ih => exact ih (h.operation o)

end Indexed

/-- A new session has no modules of the project. -/
theorem indexed_create {options : Options} {host : Host} {hostRequests : List Request}
    (made : create options host hostRequests = .ok s) : Indexed #[] s := by
  let start := blank options host hostRequests
  have empty : ∀ (key : Addition → String) k e, ¬ Claims #[] key k e := fun key k e claim =>
    absurd claim.index_lt (Nat.not_lt_zero _)
  have nothing : Indexed #[] start := by
    constructor
    case celled => exact celled_blank options host hostRequests
    case booked => simp [start, blank]
    case made => exact fun e he => absurd he (Nat.not_lt_zero _)
    case own => exact fun e _ he => absurd he (Nat.not_lt_zero _)
    case paths =>
      intro k m
      constructor
      · rintro ⟨⟩
      · rintro ⟨-, e, claim, -⟩
        exact absurd claim (empty _ k e)
    case names =>
      intro k m
      constructor
      · rintro ⟨⟨r, hr, -⟩, -⟩
        cases hr
      · rintro ⟨-, e, claim, -⟩
        exact absurd claim (empty _ k e)
  exact nothing.resetModules.steady (steady_create made)

/-- Adding a module does not change what the empty name stands for. -/
theorem peek?_empty_addModule (h : Celled s) (name path : String) :
    (after (addModule name path) s).peek? "" = s.peek? "" := by
  have listed : (s.withListed name path).peek? "" = s.peek? "" := by
    rw [peek?, peek?, (sameCells_withListed s name path).modules]
  rcases addModule_cases h name path with ⟨-, steady⟩ | ⟨named, q, binds, steady⟩
  · rw [← listed, peek?, peek?, steady.modules]
  · have bound : q.peek? "" = (s.withListed name path).peek? "" := by
      rw [binds.peek?, if_neg named.symm]
    rw [← listed, ← bound, peek?, peek?, steady.modules]

/-- In every history, a path or a name other than the empty one leads to the module that was added last
under it if that module is not removed, and otherwise to no module of the project. The empty ones are
never bound. Removing a module leaves the paths, names and cells of the other ones as they are, and
removing it again changes nothing. -/
theorem indexes_follow_history {options : Options} {host : Host} {hostRequests : List Request}
    (made : create options host hostRequests = .ok s) (ops : List Operation) :
    let t := afterAll ops s
    let added := additions ops
    t.entries.map Entry.addition = added ∧
    (∀ path m, t.modulesByPath.find? path = some m ↔
      path ≠ "" ∧ ∃ e, Claims added (·.path) path e ∧ m = (t.entry e).module) ∧
    (∀ name m, t.ProjectName name m ↔
      name ≠ "" ∧ ∃ e, Claims added (·.name) name e ∧ m = (t.entry e).module) ∧
    (∀ name path,
      let q := after (addModule name path) t
      q.modulesByPath.find? "" = none ∧ q.peek? "" = t.peek? "") ∧
    (∀ e f : EntryId, f ≠ e → f.index < added.size →
      let q := after (removeModule (some e)) t
      (∀ path, q.modulesByPath.find? path = some (t.entry f).module ↔
        t.modulesByPath.find? path = some (t.entry f).module) ∧
      ∀ r, (t.ref r).module = some (t.entry f).module →
        (∀ name, q.peek? name = some r ↔ t.peek? name = some r) ∧ q.ref r = t.ref r) ∧
    ∀ e : EntryId, ∀ a, added[e.index]? = some a → a.removed = true →
      removeModule (some e) t = .ok () t := by
  intro t added
  have h : Indexed added t := (indexed_create made).afterAll ops
  refine ⟨h.booked, h.paths, h.names, fun name path => ?_, fun e f other hf => h.bindings_kept other hf,
    fun e a there removed => ?_⟩
  · have more := h.addModule name path
    constructor
    · rw [Option.eq_none_iff_forall_ne_some]
      intro m leads
      exact ((more.paths "" m).1 leads).1 rfl
    · exact peek?_empty_addModule h.celled name path
  · have inside : e.index < added.size := (Array.getElem?_eq_some_iff.1 there).1
    have same : a = (t.entry e).addition := Option.some.inj (there.symm.trans (h.addition inside))
    rw [same] at removed
    rcases removeModule_cases e t with ⟨-, run⟩ | ⟨live, -⟩
    · exact run
    · exact absurd (live.symm.trans removed) Bool.false_ne_true

/-- Of two modules with one name, the second is removed: the name does not go back to the first, which
keeps its path. -/
theorem indexes_follow_history_shared :
    let t := afterAll [.addModule "m" "/a.py", .addModule "m" "/b.py", .removeModule (some ⟨1⟩)] bare
    t.modulesByPath.find? "/a.py" = some (t.entry ⟨0⟩).module ∧ (∀ m, ¬ t.ProjectName "m" m) ∧
      removeModule (some ⟨1⟩) t = .ok () t := by
  let ops : List Operation := [.addModule "m" "/a.py", .addModule "m" "/b.py", .removeModule (some ⟨1⟩)]
  obtain ⟨-, paths, names, -, -, again⟩ := indexes_follow_history create_bare ops
  have added : additions ops = #[⟨"m", "/a.py", false⟩, ⟨"m", "/b.py", true⟩] := rfl
  rw [added] at paths names again
  refine ⟨(paths "/a.py" _).2 ⟨by decide, ⟨0⟩, ⟨⟨_, rfl, rfl, rfl⟩, fun j a hj ha => ?_⟩, rfl⟩,
    fun m bound => ?_, again ⟨1⟩ _ rfl rfl⟩
  · have hj : 0 < j := hj
    have wide : j < 2 := (Array.getElem?_eq_some_iff.1 ha).1
    obtain rfl : j = 1 := by omega
    cases ha
    decide
  · obtain ⟨-, ⟨i⟩, claim, -⟩ := (names "m" m).1 bound
    have wide : i < 2 := claim.index_lt
    obtain ⟨a, ha, -, live⟩ := claim.there
    rcases (by omega : i = 0 ∨ i = 1) with rfl | rfl
    · exact claim.last 1 _ Nat.zero_lt_one rfl rfl
    · cases ha
      cases live

end Typeflow.Session
