import Typeflow.Proofs.Generation
import Typeflow.Proofs.Registry.Equip

/-! A reload begins a new generation of values. What modules name goes, but whatever can be come across
in other places afterwards is still there and may come back. -/
namespace Typeflow.Session

variable {s t : Session}

/-- The making of registrations retains what is kept. -/
theorem Retains.refreshes : Refreshes Retains where
  furnish := spans.furnish
  log _ _ := .of_same rfl rfl
  tell _ _ := .of_same rfl rfl
  clear := spans.clearing

/-- The table of modules is made anew without values. -/
theorem values_resetModules (s : Session) : (after resetModules s).values = s.values := by
  have resets : Within .all (fun s t : Session => t.values = s.values) resetModules fun _ => True := by
    refine .read fun s _ => .bind (.forM fun _ _ => .of_change fun _ _ => rfl) fun _ _ =>
      .bind (.of_change fun _ _ => rfl) fun _ _ => .forM fun name _ => .read fun t _ => .ite ?_ (.pure trivial)
    exact .bind (.of_change fun _ _ => rfl) fun _ _ => .of_change fun _ _ => rfl
  have loop : ∀ t, Relation.ReflTransGen (fun s t : Session => t.values = s.values) s t →
      t.values = s.values := by
    intro t steps
    induction steps with
    | refl => rfl
    | tail _ step ih => exact step.trans ih
  exact loop _ (resets s (Realm.closed_all s)).1

/-- With empty memo tables a new generation begins. -/
theorem generation_clearCaches (s : Session) : Generation s.values.size (after clearCaches s) where
  size := Nat.le_refl _
  objects _ _ hv := nomatch hv
  constants _ _ hv := nomatch hv
  aggregates _ _ hv := nomatch hv
  bounds _ _ hv := nomatch hv
  current _ hv lt := absurd hv (Nat.not_le_of_lt lt)

private theorem generation_reload (s : Session) : Generation s.values.size (after reload s) := by
  have first := generation_clearCaches (after resetModules s)
  rw [values_resetModules] at first
  rw [after_reload_equips]
  exact first.retains (Retains.refreshes.reloaded.whole .refl .trans _)

/-- A value that can be come across: it belongs to whatever is closed under all that reading leads to. -/
def Reachable (s : Session) (v : ValueId) : Prop := ∀ R : Realm, R.Closed s → R.value v

def Onward (R : Realm) (s t : Session) : Prop := (R.Closed s → R.Closed t) ∧ Retains s t

instance (R : Realm) : R.Guards (Onward R) where
  closed hs step := step.1 hs

private theorem onward_analyzeQueued (R : Realm) (c : Cancellation) :
    Within R (Onward R) (analyzeQueued c) fun _ => True := by
  refine .analyzeQueued (fun s t beside => ⟨fun hs => hs.reserves beside.toReserves, .of_reserves beside.toReserves⟩) ?_ c
  refine fun u s hs => ⟨?_, fun _ _ _ => trivial⟩
  refine Relation.ReflTransGen.mono (fun s t touch => ?_) _ _ (touches_runBody u hs)
  exact ⟨fun hs => Realm.Guards.closed hs touch, Retains.spans.touch touch⟩

/-- Scopes may have lost their names, and more work may be queued. -/
structure Unnames (s t : Session) : Prop where
  still : Still (fun _ => False) s t
  names : ∀ c, (t.scope c).names = (s.scope c).names ∨ (t.scope c).names = {}

namespace Unnames

variable {q : Session}

theorem trans (h : Unnames s t) (g : Unnames t q) : Unnames s q where
  still := h.still.trans g.still
  names c := by
    rcases g.names c with same | gone
    · rw [same]
      exact h.names c
    · exact .inr gone

/-- Names that are gone do not come back. -/
theorem gone (h : Unnames s t) {c : ScopeId} (empty : (s.scope c).names = {}) :
    (t.scope c).names = {} := (h.names c).elim (·.trans empty) id

theorem of_frame (still : Still (fun _ => False) s t) (scopes : t.scopes = s.scopes) : Unnames s t :=
  ⟨still, fun c => .inl (by rw [scope, scope, scopes])⟩

theorem scope_withoutNames (s : Session) (c d : ScopeId) :
    ((s.withoutNames c).scope d).names = if d = c then {} else (s.scope d).names := by
  simp only [withoutNames, scope, getD_setIfInBounds, ScopeId.index_inj]
  by_cases same : d = c
  · subst same
    by_cases range : d.index < s.scopes.size
    · simp [range]
    · simp only [range, and_false, if_false, if_true]
      rw [Array.getD, dif_neg range]
      rfl
  · simp [same]

theorem clearModule (m : ValueId) (s : Session) : Unnames s (after (clearModule m) s) := by
  refine ⟨.clearModule m, fun c => ?_⟩
  rcases after_clearModule m s with ends | ⟨p, t, _, told, ends⟩ <;> rw [ends]
  · exact .inl rfl
  · rw [scope_withoutNames]
    split
    · exact .inr rfl
    · exact .inl (by rw [told.frame]; rfl)

theorem enqueueEntry (e : EntryId) (s : Session) : Unnames s (after (enqueueEntry e) s) := by
  rcases after_enqueueEntry e s with ends | ⟨u, _, ends⟩ <;> rw [ends]
  · exact of_frame (.refl s) rfl
  · have asked : Unnames s (s.withVersion e) := of_frame (.withVersion e) rfl
    have cleared := asked.trans (clearModule (s.entry e).module _)
    exact cleared.trans (of_frame (.enqueue u .back) (by rw [(queues_enqueue u .back _).frame]))

end Unnames

/-- The module loses its names. -/
theorem names_clearModule {m : ValueId} {q : ProjectModule} (h : (s.form m).module? = some q) :
    ((after (clearModule m) s).scope q.scope).names = {} := by
  have form : s.form m = .module q := by
    cases hf : s.form m <;> rw [hf] at h <;> cases h
    rfl
  obtain ⟨t, told, ends⟩ := clearModule_of_form form
  rw [ends, Unnames.scope_withoutNames, if_pos rfl]

def clearAll (module : EntryId → ValueId) (entries : List EntryId) : Analysis Unit :=
  entries.forM fun e => do
    clearModule (module e)
    enqueueEntry e

private theorem unnames_clearAll (module : EntryId → ValueId) (entries : List EntryId) (s : Session) :
    Unnames s (after (clearAll module entries) s) ∧
      ∀ e ∈ entries, ∀ q, (s.form (module e)).module? = some q →
        ((after (clearAll module entries) s).scope q.scope).names = {} := by
  induction entries generalizing s with
  | nil => exact ⟨.of_frame (.refl s) rfl, fun _ he => nomatch he⟩
  | cons e rest ih =>
    let cleared := after (clearModule (module e)) s
    let first := after (enqueueEntry e) cleared
    have run : after (clearAll module (e :: rest)) s = after (clearAll module rest) first := by
      have turn : Total (do clearModule (module e); enqueueEntry e) :=
        .bind (total_clearModule _) fun _ => total_enqueueEntry e
      refine (after_seq turn s).trans ?_
      rw [after_seq (total_clearModule _)]
      rfl
    have queued : Unnames cleared first := .enqueueEntry e cleared
    have step := (Unnames.clearModule (module e) s).trans queued
    obtain ⟨more, others⟩ := ih first
    rw [run]
    refine ⟨step.trans more, fun f hf q form => ?_⟩
    rcases List.mem_cons.1 hf with rfl | hf
    · exact more.gone (queued.gone (names_clearModule form))
    · exact others f hf q ((step.still.module _).trans form)

private theorem names_queueAll (s : Session) :
    Still (fun _ => False) s (after queueAll s) ∧
      ∀ e, e.index < s.entries.size → (s.entry e).removed = false →
        ∀ q, (s.form (s.entry e).module).module? = some q →
          ((after queueAll s).scope q.scope).names = {} := by
  let entries := ((List.range s.entries.size).map EntryId.mk).filter fun e => !(s.entry e).removed
  let module : EntryId → ValueId := fun e => (s.entry e).module
  let cleared := after (clearAll module entries) s
  have total : Total (clearAll module entries) :=
    .forM (fun _ => .bind (total_clearModule _) fun _ => total_enqueueEntry _) _
  have ends : ∃ metrics log, after queueAll s = { cleared with metrics, log } := by
    rw [queueAll, after_read]
    exact ⟨_, _, (after_seq total s).trans rfl⟩
  obtain ⟨metrics, log, ends⟩ := ends
  obtain ⟨unnamed, empty⟩ := unnames_clearAll module entries s
  have told : Still (fun _ => False) cleared { cleared with metrics, log } :=
    .of_bookkeeping (by constructor <;> rfl)
  rw [ends]
  refine ⟨unnamed.still.trans told, fun e range there q form => empty e ?_ q form⟩
  exact List.mem_filter.2 ⟨List.mem_map.2 ⟨e.index, List.mem_range.2 range, rfl⟩, by rw [there]; rfl⟩

/-- After a reload that succeeds no module of the project names anything. -/
theorem names_reload (ends : succeeds reload s = true) {e : EntryId}
    (range : e.index < (after reload s).entries.size)
    (there : ((after reload s).entry e).removed = false) {q : ProjectModule}
    (form : ((after reload s).form ((after reload s).entry e).module).module? = some q) :
    ((after reload s).scope q.scope).names = {} := by
  obtain ⟨_, run⟩ := succeeded ends
  obtain ⟨r, last⟩ : ∃ r, after reload s = after queueAll r := by
    obtain ⟨_, _, -, run⟩ := bind_eq_ok run
    obtain ⟨_, _, -, run⟩ := bind_eq_ok run
    obtain ⟨_, _, -, run⟩ := bind_eq_ok run
    obtain ⟨_, r, -, run⟩ := bind_eq_ok run
    exact ⟨r, (after_of_ok (m := queueAll) run).symm⟩
  obtain ⟨still, empty⟩ := names_queueAll r
  obtain ⟨n, same⟩ := still.entry e
  rw [last] at range there form ⊢
  rw [same] at there form
  rw [still.entries] at range
  exact empty e range there q ((still.module _).symm.trans form)

/-- Right after a reload the modules of the project name nothing, and in a run that follows all memo
tables are filled anew: each of them holds values only that were made since, and each value that was made
since and is to be shared is the one that is given out. Only names of functions and classes and values
that are kept elsewhere are not touched by the reload, and so an older value is found under a name only
if it could be come across in such a place right after the reload. -/
theorem reload_begins_generation (s : Session) (c : Cancellation) :
    let p := after reload s
    let t := after (analyzeQueued c) p
    (succeeds reload s = true → ∀ e, e.index < p.entries.size → (p.entry e).removed = false →
      ∀ q, (p.form (p.entry e).module).module? = some q → ∀ name, p.findName? q.scope name = none) ∧
    Generation s.values.size t ∧
    ∀ scope name x, t.findName? scope name = some x → ∀ v ∈ (t.types x).items,
      v.index < s.values.size → p.Reachable v := by
  intro p t
  have generation := generation_reload s
  have onward := fun (R : Realm) hs => (onward_analyzeQueued R c p hs).1
  refine ⟨fun ends e range there q form name => ?_, ?_, fun scope name x hx v hv _ R hs => ?_⟩
  · rw [findName?, names_reload ends range there form]
    rfl
  · exact generation.retains (Retains.spans.all (fun _ _ step => step.2) (onward .all (Realm.closed_all p)))
  · have closed : R.Closed t := Realm.Guards.closed_all hs (onward R hs)
    exact closed.types x (closed.names scope name x hx) v hv

/-- A module that names a number gets the one that the session gives out since the reload. -/
theorem reload_begins_generation_assigning :
    let z : Stmt := .assign {} [.name {} "z"] (.literal {} (.int 1))
    let s := afterAll [.addModule "m" "/m.py", .replaceTree ⟨0⟩ (some { mark := {}, body := [z] }),
      .analyzeEntry ⟨0⟩ .never] bare
    let t := after (analyzeQueued .never) (after reload s)
    ∃ x v, t.entryName? ⟨0⟩ "z" = some x ∧ (t.types x).items = [v] ∧
      (t.value v).constant? = some (.int 1) ∧ s.values.size ≤ v.index ∧ t.IsCurrent v := by
  intro z s t
  have generation : Generation s.values.size t := (reload_begins_generation s .never).2.1
  let v : ValueId := ⟨2⟩
  have seen : t.entryName? ⟨0⟩ "z" = some ⟨1⟩ ∧ (t.types ⟨1⟩).items = [v] ∧
      (t.value v).constant? = some (.int 1) ∧ s.values.size ≤ v.index ∧ v.index < t.values.size := by
    decide +kernel
  clear_value s t
  obtain ⟨named, found, number, since, there⟩ := seen
  exact ⟨⟨1⟩, v, named, found, number, since, generation.current v since there⟩

/-- A module that names what a function of its own returns, a number. -/
def returningModule : List Operation :=
  let f : Stmt := .functionDef {} "f" [] [.ret {} (.literal {} (.int 1))] []
  let z : Stmt := .assign {} [.name {} "z"] (.call {} (.name {} "f") [] [])
  [.addModule "m" "/m.py", .replaceTree ⟨0⟩ (some { mark := {}, body := [f, z] }),
    .analyzeEntry ⟨0⟩ .never]

/-- A function keeps what it returned before a reload, and gives it back to the names of its module. The
session itself has another value for the number from then on. -/
theorem reload_keeps_returns :
    let s := afterAll returningModule bare
    let p := after reload s
    let t := after (analyzeQueued .never) p
    succeeds reload s = true ∧ succeeds (analyzeQueued .never) p = true ∧ t.queue.jobs = [] ∧
      (t.entryName? ⟨0⟩ "z").map (fun x => (t.types x).items) = some [⟨2⟩] ∧
      (t.value ⟨2⟩).constant? = some (.int 1) ∧ t.constants.find? (.int 1) ≠ some (some ⟨2⟩) ∧
      (after (constantValue (.int 1)) t).constants.find? (.int 1) = some (some ⟨3⟩) := by
  decide +kernel

end Typeflow.Session
