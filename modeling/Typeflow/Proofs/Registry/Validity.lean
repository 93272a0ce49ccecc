import Typeflow.Proofs.Registry.Cells

/-! A cell of the table of modules is valid as long as its name is bound to it, in every history. -/
namespace Typeflow.Session

variable {s t q : Session} {name : String} {r : RefId}

/-- Cells become invalid, and nothing else happens. -/
theorem after_invalidateAll (pairs : List (String × RefId)) (s : Session) :
    let t := after (pairs.forM fun pair => invalidate pair.2) s
    t = { s with refs := t.refs } ∧ t.refs.size = s.refs.size ∧
      ∀ r, t.ref r =
        if r ∈ pairs.map (·.2) ∧ r.index < s.refs.size then { s.ref r with valid := false }
        else s.ref r := by
  induction pairs generalizing s with
  | nil => exact ⟨rfl, rfl, fun r => (if_neg fun both => nomatch both.1).symm⟩
  | cons first rest ih =>
    let middle := after (invalidate first.2) s
    have look : ∀ r, middle.ref r =
        if r = first.2 ∧ first.2.index < s.refs.size then { s.ref r with valid := false } else s.ref r :=
      fun r => ref_updateRef s first.2 r _
    have wide : middle.refs.size = s.refs.size := Array.size_modify
    obtain ⟨frame, size, ref⟩ := ih middle
    rw [after_forM_cons fun pair : String × RefId => total_invalidate pair.2]
    refine ⟨by rw [frame]; rfl, size.trans wide, fun r => ?_⟩
    have mem : r ∈ (first :: rest).map (·.2) ↔ r = first.2 ∨ r ∈ rest.map (·.2) := List.mem_cons
    rw [ref, look, wide]
    by_cases here : r = first.2
    · subst here
      by_cases there : first.2.index < s.refs.size <;> simp [there]
    · simp only [mem, here, false_or, false_and, if_false]

def projectOnly (s : Session) : Session :=
  let dropped := s.modules.toList.filter fun pair => !s.isProjectModule pair.2
  { after (dropped.forM fun pair => invalidate pair.2) s with
    modules := ⟨s.modules.toList.filter fun pair => s.isProjectModule pair.2⟩ }

def fillName (name : String) : Analysis Unit := do
  if ((← get).peek? name).isNone then
    let r ← newRef {}
    modify fun s => { s with modules := s.modules.insert name r }

private theorem total_fillName (name : String) : Total (fillName name) :=
  .read fun _ => .ite (.bind (.modifyGet _) fun _ => .modify _) (.pure _)

private theorem after_resetModules (s : Session) :
    after resetModules s = after (s.host.moduleNames.forM fillName) s.projectOnly := by
  have total : Total ((s.modules.toList.filter fun pair => !s.isProjectModule pair.2).forM
      fun pair => invalidate pair.2) := .forM (fun pair : String × RefId => total_invalidate pair.2) _
  simp only [resetModules, after_read]
  exact after_seq total s

private theorem unbinds_projectOnly (h : Celled s) :
    Unbinds (fun name => ∃ r, s.peek? name = some r ∧ s.isProjectModule r = false) s s.projectOnly := by
  let dropped := s.modules.toList.filter fun pair => !s.isProjectModule pair.2
  obtain ⟨frame, size, ref⟩ := after_invalidateAll dropped s
  have mem : ∀ name r, (name, r) ∈ s.modules.toList ↔ s.peek? name = some r := fun name r =>
    ⟨h.ordered.find?_of_mem, NameMap.mem_of_find?⟩
  have listed : ∀ r, r ∈ dropped.map (·.2) ↔
      ∃ name, (∃ r, s.peek? name = some r ∧ s.isProjectModule r = false) ∧ s.peek? name = some r := by
    intro r
    simp only [dropped, List.mem_map, List.mem_filter, Bool.not_eq_true', Prod.exists,
      exists_eq_right, mem]
    refine exists_congr fun name => ⟨fun ⟨hr, plain⟩ => ⟨⟨r, hr, plain⟩, hr⟩, ?_⟩
    rintro ⟨⟨q, hq, plain⟩, hr⟩
    obtain rfl : q = r := Option.some.inj (hq.symm.trans hr)
    exact ⟨hr, plain⟩
  refine ⟨?_, fun ordered => ordered.filter _, fun name r => ?_, size, fun r lost => ?_, fun r kept => ?_⟩
  · simp only [projectOnly]
    rw [frame]
  · have look : s.projectOnly.peek? name = some r ↔
        (name, r) ∈ s.modules.toList.filter fun pair => s.isProjectModule pair.2 :=
      ⟨NameMap.mem_of_find?, NameMap.Ordered.find?_of_mem (h.ordered.filter _)⟩
    rw [look, List.mem_filter, mem]
    refine and_congr_right fun hr => ?_
    simp [hr]
  · obtain ⟨name, -, hr⟩ := id lost
    exact (ref r).trans (if_pos ⟨(listed r).2 lost, h.placed name r hr⟩)
  · exact (ref r).trans (if_neg fun both => kept ((listed r).1 both.1))

/-- Names that had no cell have got empty ones. -/
structure Refills (s t : Session) : Prop where
  frame : t = { s with modules := t.modules, refs := t.refs }
  celled : Celled t
  size : s.refs.size ≤ t.refs.size
  ref : ∀ r, r.index < s.refs.size → t.ref r = s.ref r
  kept : ∀ name r, s.peek? name = some r → t.peek? name = some r
  made : ∀ name r, t.peek? name = some r →
    s.peek? name = some r ∨ s.refs.size ≤ r.index ∧ t.ref r = {}

namespace Refills

theorem refl (h : Celled s) : Refills s s :=
  ⟨rfl, h, Nat.le_refl _, fun _ _ => rfl, fun _ _ hr => hr, fun _ _ => .inl⟩

theorem trans (h : Refills s t) (g : Refills t q) : Refills s q where
  frame := by rw [g.frame, h.frame]
  celled := g.celled
  size := Nat.le_trans h.size g.size
  ref r hr := (g.ref r (Nat.lt_of_lt_of_le hr h.size)).trans (h.ref r hr)
  kept name r hr := g.kept name r (h.kept name r hr)
  made name r hr := by
    rcases g.made name r hr with hr | ⟨new, empty⟩
    · refine (h.made name r hr).imp_right fun ⟨new, empty⟩ => ⟨new, ?_⟩
      rw [g.ref r (h.celled.placed name r hr), empty]
    · exact .inr ⟨Nat.le_trans h.size new, empty⟩

private theorem fillName (h : Celled s) (announced : name ∈ s.host.moduleNames) :
    Refills s (after (fillName name) s) ∧ ((after (Session.fillName name) s).peek? name).isSome := by
  cases hp : s.peek? name with
  | some r =>
    have run : after (Session.fillName name) s = s := by
      simp only [Session.fillName, after_read, hp, Option.isNone_some, Bool.false_eq_true, if_false]
      rfl
    rw [run, hp]
    exact ⟨refl h, rfl⟩
  | none =>
    have binds := binds_setModule h name {}
    have run : after (Session.fillName name) s = after (do setModule name (← newRef {})) s := by
      let pushed : Session := { s with refs := s.refs.push {} }
      have free : pushed.peek? name = none := hp
      have one : after (Session.fillName name) s =
          { pushed with modules := pushed.modules.insert name ⟨s.refs.size⟩ } := by
        simp only [Session.fillName, after_read, hp, Option.isNone_none, if_true]
        rfl
      have other : after (do setModule name (← newRef {})) s = after (setModule name ⟨s.refs.size⟩) pushed :=
        rfl
      rw [one, other, setModule, after_read, free]
      rfl
    rw [run]
    have celled := binds.celled h rfl (by rintro _ ⟨⟩) (by rintro _ ⟨⟩) (by rintro _ ⟨⟩) (.inr announced)
    refine ⟨⟨binds.frame, celled, by rw [binds.size]; omega, fun r hr => ?_, fun other r hr => ?_,
      fun other r hr => ?_⟩, ?_⟩
    · rw [binds.old hr, hp, if_neg (by rintro ⟨⟩)]
    · rw [binds.peek?, if_neg]
      · exact hr
      · rintro rfl
        rw [hp] at hr
        cases hr
    · rw [binds.peek?] at hr
      split at hr
      · cases hr
        exact .inr ⟨Nat.le_refl _, by rw [binds.ref, if_pos rfl]⟩
      · exact .inl hr
    · rw [binds.peek?, if_pos rfl]
      rfl

private theorem fillNames (h : Celled s) (names : List String) (announced : ∀ n ∈ names, n ∈ s.host.moduleNames) :
    Refills s (after (names.forM Session.fillName) s) ∧
      ∀ n ∈ names, ((after (names.forM Session.fillName) s).peek? n).isSome := by
  induction names generalizing s with
  | nil => exact ⟨refl h, nofun⟩
  | cons n rest ih =>
    obtain ⟨first, found⟩ := fillName h (announced n List.mem_cons_self)
    have same : (after (Session.fillName n) s).host = s.host := by rw [first.frame]
    obtain ⟨more, others⟩ := ih first.celled fun other ho => by
      rw [same]
      exact announced other (List.mem_cons_of_mem _ ho)
    rw [after_forM_cons total_fillName]
    refine ⟨first.trans more, List.forall_mem_cons.2 ⟨?_, others⟩⟩
    obtain ⟨r, hr⟩ := Option.isSome_iff_exists.1 found
    rw [more.kept n r hr]
    rfl

end Refills

/-- The names of modules of the project keep their cells; all other names get new ones. -/
structure Resets (s t : Session) : Prop where
  frame : t = { s with modules := t.modules, refs := t.refs }
  celled : Celled t
  size : s.refs.size ≤ t.refs.size
  project : ∀ name r, s.peek? name = some r → s.isProjectModule r = true →
    t.peek? name = some r ∧ t.ref r = s.ref r
  other : ∀ name r, s.peek? name = some r → s.isProjectModule r = false →
    (t.ref r).valid = false ∧
      ∃ new, t.peek? name = some new ∧ s.refs.size ≤ new.index ∧ t.ref new = {}
  bound : ∀ name r, t.peek? name = some r →
    s.peek? name = some r ∧ s.isProjectModule r = true ∨ s.refs.size ≤ r.index ∧ t.ref r = {}

theorem resets_resetModules (h : Celled s) : Resets s (after resetModules s) := by
  let u := s.projectOnly
  have unbinds : Unbinds _ s u := unbinds_projectOnly h
  have host : u.host = s.host := by rw [unbinds.frame]
  obtain ⟨refills, found⟩ := Refills.fillNames (unbinds.celled h) s.host.moduleNames
    fun n hn => by rwa [host]
  rw [after_resetModules]
  have kept : ∀ name r, u.peek? name = some r ↔ s.peek? name = some r ∧ s.isProjectModule r = true := by
    intro name r
    rw [unbinds.peek?]
    refine and_congr_right fun hr => ?_
    simp [hr]
  refine ⟨?_, refills.celled, Nat.le_trans (Nat.le_of_eq unbinds.size.symm) refills.size, ?_, ?_, ?_⟩
  · rw [refills.frame, unbinds.frame]
  · intro name r hr project
    refine ⟨refills.kept name r ((kept name r).2 ⟨hr, project⟩), ?_⟩
    rw [refills.ref r (by rw [unbinds.size]; exact h.placed name r hr), unbinds.kept]
    rintro ⟨other, ⟨q, hq, plain⟩, ho⟩
    obtain rfl : q = r := Option.some.inj (hq.symm.trans ho)
    rw [project] at plain
    cases plain
  · intro name r hr plain
    constructor
    · rw [refills.ref r (by rw [unbinds.size]; exact h.placed name r hr),
        unbinds.lost r ⟨name, ⟨r, hr, plain⟩, hr⟩]
    · have announced := (h.announced name r hr).resolve_left (by rw [plain]; exact Bool.false_ne_true)
      obtain ⟨new, hn⟩ := Option.isSome_iff_exists.1 (found name announced)
      refine ⟨new, hn, ?_⟩
      rcases refills.made name new hn with old | ⟨fresh, empty⟩
      · obtain ⟨old, project⟩ := (kept name new).1 old
        obtain rfl : new = r := Option.some.inj (old.symm.trans hr)
        rw [plain] at project
        cases project
      · exact ⟨by rwa [unbinds.size] at fresh, empty⟩
  · intro name r hr
    refine (refills.made name r hr).imp (kept name r).1 fun ⟨fresh, empty⟩ => ⟨?_, empty⟩
    rwa [unbinds.size] at fresh

/-- A new entry has a module of its own. -/
theorem form_withListed (s : Session) (name path : String) (v : ValueId) :
    (s.withListed name path).form v = if v.index = s.values.size then
      .module ⟨⟨s.entries.size⟩, ⟨s.scopes.size⟩⟩ else s.form v := by
  rw [form, value, values_withListed]
  exact form_push s _ v

/-- A new module of the project has no cell yet. -/
theorem sameCells_withListed (s : Session) (name path : String) : SameCells s (s.withListed name path) := by
  have look : ∀ v, v.index < s.values.size → (s.withListed name path).form v = s.form v := by
    intro v hv
    rw [form_withListed, if_neg (Nat.ne_of_lt hv)]
  have size := size_withListed s name path
  have frame : (s.withListed name path).modules = s.modules ∧ (s.withListed name path).host = s.host ∧
      (s.withListed name path).refs = s.refs ∧
      (s.withListed name path).objectValues = s.objectValues := by
    unfold withListed
    split <;> exact ⟨rfl, rfl, rfl, rfl⟩
  obtain ⟨modules, host, refs, objects⟩ := frame
  refine ⟨modules, by rw [host], by rw [refs], by omega, fun v hv => by rw [look v hv], ?_, ?_⟩
  · intro hosted o v hv
    rw [objects] at hv
    obtain ⟨there, kind⟩ := hosted o v hv
    rw [look v there]
    exact ⟨by omega, kind⟩
  · exact fun _ r => .inl (by rw [Session.ref, Session.ref, refs])

/-- A new module gets a new cell if it has a name, and what follows has nothing to do with names and
paths. -/
theorem addModule_cases (h : Celled s) (name path : String) :
    name = "" ∧ Steady (s.withListed name path) (after (addModule name path) s) ∨
      name ≠ "" ∧ ∃ q, Binds name { module := some ⟨s.values.size⟩, loaded := true }
        (s.withListed name path) q ∧ Steady q (after (addModule name path) s) := by
  have listed := h.same (sameCells_withListed s name path)
  rw [after_addModule]
  cases named : name.isEmpty with
  | true =>
    rw [if_pos rfl]
    exact .inl ⟨String.isEmpty_iff.1 named, .of_remote ((Apart.announce path).remote _)⟩
  | false =>
    have bound := binds_setModule listed name { module := some ⟨s.values.size⟩, loaded := true }
    rw [if_neg Bool.false_ne_true, after_bindModule]
    refine .inr ⟨fun empty => ?_, _, bound, ?_⟩
    · rw [empty] at named
      cases named
    · exact (Steady.of_within (Steady.refreshes.installFor name) _).trans (.of_remote ((Apart.wake name).remote _))

/-- After the reset of a reload names and paths stand for what they stand for. -/
theorem steady_reload (s : Session) : Steady (after resetModules s) (after reload s) := by
  rw [after_reload_equips]
  exact (Steady.clearCaches _).trans (.of_within Steady.refreshes.reloaded _)

/-- With the path and the name of a module forgotten and the mark that it is removed. -/
def unlisted (s : Session) (e : EntryId) : Session :=
  (after (forgetName (s.entry e).name (s.entry e).module)
    (after (forgetPath (s.entry e).path (s.entry e).module) s)).withoutEntry e

/-- Removing a module again does nothing. What follows the mark that it is removed has nothing to do with
names and paths. -/
theorem removeModule_cases (e : EntryId) (s : Session) :
    (s.entry e).removed = true ∧ removeModule (some e) s = .ok () s ∨
      (s.entry e).removed = false ∧ Steady (s.unlisted e) (after (removeModule (some e)) s) := by
  cases hr : (s.entry e).removed with
  | true =>
    refine .inl ⟨rfl, ?_⟩
    simp only [removeModule, read_run, hr]
    rfl
  | false =>
    refine .inr ⟨rfl, ?_⟩
    let rest : Analysis Unit := do
      retireEntry e false
      clearModule (s.entry e).module
      count "modules_removed" 1
      writeLog .modules ("removed " ++ (s.entry e).name)
    have apart : Apart rest fun _ => True :=
      Within.bind (Apart.retireEntry e false) fun _ _ =>
        Within.bind (Apart.of_clears (.clearModule _)) fun _ _ =>
          Within.bind (Apart.of_fine (.count _ _)) fun _ _ => Apart.of_fine (.writeLog _ _)
    have run : removeModule (some e) s =
        (forgetPath (s.entry e).path (s.entry e).module >>= fun _ =>
          forgetName (s.entry e).name (s.entry e).module >>= fun _ =>
            (updateEntry e fun entry => { entry with removed := true, unit := none }) >>= fun _ =>
              rest) s := by
      simp only [removeModule, read_run, hr]
      rfl
    have ends : after (removeModule (some e)) s = after rest (s.unlisted e) := by
      rw [after, run, ← after, after_seq (Keeps.forgetPath _ _).1, after_seq (Keeps.forgetName _ _).1,
        after_seq (total_updateEntry e _)]
      rfl
    rw [ends]
    exact .of_remote (apart.remote _)

/-- Names keep their cells, lose them or get new ones, and cells are valid as long as they are bound. -/
structure Turnover (s t : Session) : Prop where
  celled : Celled t
  size : s.refs.size ≤ t.refs.size
  bound : ∀ name r, t.peek? name = some r → s.peek? name = some r ∨ s.refs.size ≤ r.index

namespace Turnover

theorem trans (h : Turnover s t) (g : Turnover t q) : Turnover s q where
  celled := g.celled
  size := Nat.le_trans h.size g.size
  bound name r hr := by
    rcases g.bound name r hr with hr | new
    · exact h.bound name r hr
    · exact .inr (Nat.le_trans h.size new)

theorem of_same (h : Celled s) (g : SameCells s t) : Turnover s t where
  celled := h.same g
  size := Nat.le_of_eq g.cells.symm
  bound name r hr := .inl (by rwa [peek?, g.modules] at hr)

private theorem of_unbinds {gone : String → Prop} (h : Celled s) (u : Unbinds gone s t) : Turnover s t where
  celled := u.celled h
  size := Nat.le_of_eq u.size.symm
  bound name r hr := .inl ((u.peek? name r).1 hr).1

theorem of_binds {m : ValueId} (h : Celled s) (kind : (s.form m).kind = .module)
    (there : m.index < s.values.size)
    (b : Binds name { module := some m, loaded := true } s t) : Turnover s t where
  celled := by
    refine b.celled h rfl ?_ ?_ (fun _ _ _ => rfl) (.inl ⟨m, rfl, kind⟩)
    · rintro _ ⟨⟩
      exact there
    · rintro _ ⟨⟩
      rw [kind]
      nofun
  size := by rw [b.size]; exact Nat.le_succ _
  bound other r hr := by
    rw [b.peek?] at hr
    split at hr
    · cases hr
      exact .inr (Nat.le_refl _)
    · exact .inl hr

private theorem of_resets (h : Resets s t) : Turnover s t where
  celled := h.celled
  size := h.size
  bound name r hr := (h.bound name r hr).imp And.left And.left

theorem addModule (h : Celled s) (name path : String) :
    Turnover s (after (addModule name path) s) := by
  have listed := of_same h (sameCells_withListed s name path)
  rcases addModule_cases h name path with ⟨-, steady⟩ | ⟨-, q, binds, steady⟩
  · exact listed.trans (of_same listed.celled steady.toSameCells)
  · have kind : ((s.withListed name path).form ⟨s.values.size⟩).kind = .module := by
      rw [form_withListed, if_pos rfl]
      rfl
    have there : s.values.size < (s.withListed name path).values.size := by
      rw [size_withListed]
      exact Nat.lt_succ_self _
    have bound := of_binds listed.celled kind there binds
    exact (listed.trans bound).trans (of_same bound.celled steady.toSameCells)

/-- Only the index of paths and the books of modules are written. -/
theorem of_books (h : Celled s) (frame : t = { s with modulesByPath := t.modulesByPath, entries := t.entries }) :
    Turnover s t := by
  refine of_same h ?_
  rw [frame]
  exact ⟨rfl, rfl, rfl, Nat.le_refl _, fun _ _ => rfl, id, fun _ _ => .inl rfl⟩

theorem forgetPath (h : Celled s) (path : String) (m : ValueId) :
    Turnover s (after (forgetPath path m) s) := by
  refine of_books h ?_
  rw [Session.forgetPath, after_modify]
  split <;> rfl

theorem unlisted (h : Celled s) (e : EntryId) : Turnover s (s.unlisted e) := by
  have path := forgetPath h (s.entry e).path (s.entry e).module
  have unbound := of_unbinds path.celled
    (unbinds_forgetName path.celled (s.entry e).name (s.entry e).module)
  exact (path.trans unbound).trans (of_books (t := Session.withoutEntry _ e) unbound.celled rfl)

theorem removeModule (h : Celled s) (e : EntryId) :
    Turnover s (after (removeModule (some e)) s) := by
  rcases removeModule_cases e s with ⟨-, run⟩ | ⟨-, steady⟩
  · rw [after_of_ok run]
    exact of_same h (Steady.refl s).toSameCells
  · have listed := unlisted h e
    exact listed.trans (of_same listed.celled steady.toSameCells)

theorem reload (h : Celled s) : Turnover s (after reload s) := by
  have reset := of_resets (resets_resetModules h)
  exact reset.trans (of_same reset.celled (steady_reload s).toSameCells)

theorem operation (h : Celled s) (o : Operation) : Turnover s (after o.run s) := by
  have steady : Steady s (after o.run s) → Turnover s (after o.run s) := fun g =>
    of_same h g.toSameCells
  have evaluation : o.evaluates → Turnover s (after o.run s) := fun g => steady (.of_evaluates g s)
  cases o with
  | addModule name path =>
    have ends : after (Operation.run (.addModule name path)) s = after (Session.addModule name path) s :=
      after_ignore _ s
    rw [ends]
    exact addModule h name path
  | removeModule e =>
    cases e with
    | none => exact steady (.refl s)
    | some e => exact removeModule h e
  | reload => exact reload h
  | specialize request => exact steady (.of_within (Steady.refreshes.fulfil request) s)
  | installFor name => exact steady (.of_within (Steady.refreshes.installFor name) s)
  | installEvery => exact steady (.of_within Steady.refreshes.installEvery s)
  | _ => exact evaluation trivial

theorem afterAll (h : Celled s) (ops : List Operation) : Turnover s (afterAll ops s) := by
  induction ops generalizing s with
  | nil => exact of_same h (Steady.refl s).toSameCells
  | cons o rest ih =>
    have first := operation h o
    exact first.trans (ih first.celled)

end Turnover

/-- There are no names in a session without anything in it. -/
theorem celled_blank (options : Options) (host : Host) (hostRequests : List Request) :
    Celled (blank options host hostRequests) := by
  have empty : ∀ r m, ((blank options host hostRequests).ref r).module ≠ some m := nofun
  refine ⟨.nil, nofun, nofun, fun r hr => absurd hr (Nat.not_lt_zero _), fun r m hm => ?_, fun r m hm => ?_, ?_,
    nofun, nofun⟩
  · exact absurd hm (empty r m)
  · exact absurd hm (empty r m)
  · intro r hr
    obtain ⟨m, hm, -⟩ := isProjectModule_iff.1 hr
    cases hm

/-- A new session has the names that a reset of an empty one gives. -/
theorem steady_create {options : Options} {host : Host} {hostRequests : List Request}
    (made : create options host hostRequests = .ok s) :
    Steady (after resetModules (blank options host hostRequests)) s := by
  have run : load = resetModules >>= fun _ => (do loadStandard; initializeHost) := rfl
  rw [created_eq made, run, after_seq total_resetModules]
  exact .of_within Steady.refreshes.loaded _

theorem celled_create {options : Options} {host : Host} {hostRequests : List Request}
    (made : create options host hostRequests = .ok s) : Celled s :=
  (resets_resetModules (celled_blank options host hostRequests)).celled.same (steady_create made).toSameCells

/-- In every history, a cell is valid exactly as long as a name is bound to it, and for whoever was given
the cell of a name this is its name. A reload keeps the cells of all names that stand for modules of the
project, and puts a new cell, which is not loaded, in the place of each other one. That each other name gets a
cell again rests on the list of the host, which stays as it was when the session was made. -/
theorem cells_are_valid_while_bound {options : Options} {host : Host} {hostRequests : List Request}
    (made : create options host hostRequests = .ok s) (ops : List Operation) :
    let t := afterAll ops s
    (∀ r, r.index < t.refs.size → ((t.ref r).valid = true ↔ ∃ name, t.peek? name = some r)) ∧
    (∀ before later name r, ops = before ++ later → (afterAll before s).peek? name = some r →
      ((t.ref r).valid = true ↔ t.peek? name = some r)) ∧
    ∀ name r, t.peek? name = some r →
      let q := after reload t
      (t.isProjectModule r = true → q.peek? name = some r ∧ q.ref r = t.ref r) ∧
      (t.isProjectModule r = false → (q.ref r).valid = false ∧
        ∃ new, q.peek? name = some new ∧ t.refs.size ≤ new.index ∧ q.ref new = {}) := by
  intro t
  have start := celled_create made
  have celled := (Turnover.afterAll start ops).celled
  refine ⟨celled.valid, fun before later name r parts bound => ?_, fun name r hr => ?_⟩
  · let u := Session.afterAll before s
    have first := (Turnover.afterAll start before).celled
    have more : Turnover u t := by
      have whole : t = Session.afterAll later u := by
        rw [← afterAll_append, ← parts]
      rw [whole]
      exact Turnover.afterAll first later
    have there := first.placed name r bound
    rw [celled.valid r (Nat.lt_of_lt_of_le there more.size)]
    refine ⟨fun ⟨other, ho⟩ => ?_, fun hn => ⟨name, hn⟩⟩
    rcases more.bound other r ho with old | new
    · rwa [first.own name other r bound old]
    · exact absurd there (Nat.not_lt_of_le new)
  · intro q
    have resets := resets_resetModules celled
    have equips : ∀ u, (after (do loadStandard; initializeHost; queueAll) u).modules = u.modules ∧
        (after (do loadStandard; initializeHost; queueAll) u).refs = u.refs := fun u =>
      Refreshes.cells.reloaded.whole (fun _ => ⟨rfl, rfl⟩) (fun h g => ⟨g.1.trans h.1, g.2.trans h.2⟩) u
    have modules : q.modules = (after resetModules t).modules := by
      rw [show q = _ from after_reload_equips t]
      exact (equips _).1
    have refs : q.refs = (after resetModules t).refs := by
      rw [show q = _ from after_reload_equips t]
      exact (equips _).2
    simp only [peek?, ref, modules, refs]
    exact ⟨resets.project name r hr, resets.other name r hr⟩

def announcing : Session := after load (blank {} { moduleNames := ["m", "sys"] } [])

private theorem create_announcing : create {} { moduleNames := ["m", "sys"] } [] = .ok announcing :=
  create_unasked _ _

/-- Two modules of the project take a name of the host one after the other. -/
def takingName : List Operation := [.addModule "m" "/a.py", .addModule "m" "/b.py"]

/-- The cell of the host and that of the first module are lost. A reload keeps the cell of the second
module, although the host announces its name, and replaces the cell of the other name. -/
theorem cells_are_valid_while_bound_superseding :
    let t := afterAll takingName announcing
    let q := after reload t
    (t.ref ⟨0⟩).valid = false ∧ (t.ref ⟨2⟩).valid = false ∧ (t.ref ⟨3⟩).valid = true ∧
      q.peek? "m" = some ⟨3⟩ ∧ (q.ref ⟨1⟩).valid = false := by
  obtain ⟨host, first, second, other, project, unloaded⟩ :
      (afterAll [] announcing).peek? "m" = some ⟨0⟩ ∧
      (afterAll [.addModule "m" "/a.py"] announcing).peek? "m" = some ⟨2⟩ ∧
      (afterAll takingName announcing).peek? "m" = some ⟨3⟩ ∧
      (afterAll takingName announcing).peek? "sys" = some ⟨1⟩ ∧
      (afterAll takingName announcing).isProjectModule ⟨3⟩ = true ∧
      (afterAll takingName announcing).isProjectModule ⟨1⟩ = false := by decide +kernel
  obtain ⟨-, handed, reloads⟩ := cells_are_valid_while_bound create_announcing takingName
  have lost : ∀ r : RefId, r ≠ ⟨3⟩ →
      ((afterAll takingName announcing).peek? "m" = some r ↔ False) := fun r differs => by
    simpa [second] using differs.symm
  have host := handed [] takingName "m" ⟨0⟩ rfl host
  have first := handed [.addModule "m" "/a.py"] [.addModule "m" "/b.py"] "m" ⟨2⟩ rfl first
  have last := handed takingName [] "m" ⟨3⟩ rfl second
  rw [lost _ (by decide)] at host first
  have stays := ((reloads "m" ⟨3⟩ second).1 project).1
  have replaced := ((reloads "sys" ⟨1⟩ other).2 unloaded).1
  exact ⟨Bool.eq_false_iff.2 host.1, Bool.eq_false_iff.2 first.1, last.2 second, stays, replaced⟩

end Typeflow.Session
