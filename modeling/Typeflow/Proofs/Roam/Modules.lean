import Typeflow.Proofs.Roam.Universe

/-! Loading modules and resolving imports stays within a realm. -/
namespace Typeflow.Session.Roams

open Within

variable {L : Licence} {R : Realm}

theorem enqueueEntry (e : EntryId) : Roams L R (Session.enqueueEntry e) fun _ => True :=
  of_change fun _ _ => .renew e

/-- A value of an object is kept for it. -/
theorem moduleOfObject_run (object : ObjectId) (s : Session) :
    ∃ m t, Session.moduleOfObject object s = .ok m t ∧ t.objectValues.find? object = some m ∧
      t.modules = s.modules ∧ t.refs = s.refs := by
  cases hk : s.objectValues.find? object with
  | some m =>
    have run : Session.moduleOfObject object s = .ok m s := by
      simp only [Session.moduleOfObject, Session.objectValue]
      exact CacheField.recall_of_find? hk _
    exact ⟨m, s, run, hk, rfl, rfl⟩
  | none =>
    let counted := after (Session.count "cache_misses" 1)
      (objectField.write (s.objectValues.reserve object) s)
    let name := s.host.nameOf object
    let made := counted.withValue ⟨name, "built-in module " ++ name, .module, .builtinModule object, {}, []⟩
    have run : Session.moduleOfObject object s = .ok (some s.nextValue)
        (objectField.write (made.objectValues.put object (some s.nextValue)) made) := by
      simp only [Session.moduleOfObject, Session.objectValue, CacheField.recall,
        show (objectField.read s).find? object = none from hk]
      rfl
    exact ⟨_, _, run, Cache.find?_put_self (by simp) _ _, rfl, rfl⟩

/-- What an action yields may be replaced. -/
theorem after_discard {α β : Type} (m : Analysis α) (b : β) (s : Session) :
    after (m >>= fun _ => (Pure.pure b : Analysis β)) s = after m s := by
  cases h : m s with
  | ok a t => rw [after_bind_of_ok h, after_of_ok h, after_pure]
  | error e t => rw [after_bind_of_error h, after_of_error h]

/-- A cell that is loaded is left alone. Otherwise the host is asked, and what it knows is loaded. -/
theorem after_lookupModule (name : String) (s : Session) :
    after (Session.lookupModule name) s = s ∨
      ∃ r, s.peek? name = some r ∧ (s.ref r).loaded = false ∧
        (after (Session.lookupModule name) s =
            after (Session.updateRef r fun ref => { ref with module := none, loaded := true })
              (after (Session.importObject name) s) ∨
          ∃ object m t, s.host.importable.find? name = some object ∧
            Session.moduleOfObject object (after (Session.importObject name) s) = .ok m t ∧
            t.objectValues.find? object = some m ∧ t.modules = s.modules ∧ t.refs = s.refs ∧
            after (Session.lookupModule name) s = after (loadCell r name m) t) := by
  cases hp : s.peek? name with
  | none =>
    refine .inl ?_
    simp only [Session.lookupModule, after_read, hp, after_pure]
  | some r =>
    cases hl : (s.ref r).loaded with
    | true =>
      refine .inl ?_
      simp only [Session.lookupModule, after_read, hp, hl, if_true, after_pure]
    | false =>
      refine .inr ⟨r, rfl, hl, ?_⟩
      have imported : Session.importObject name s =
          .ok (s.host.importModule name).1 (after (Session.importObject name) s) := rfl
      simp only [Session.lookupModule, after_read, hp, hl, Bool.false_eq_true, if_false]
      rw [after_bind_of_ok imported]
      cases asked : (s.host.importModule name).1 with
      | none => exact .inl rfl
      | some object =>
        obtain ⟨m, t, run, found, modules, refs⟩ :=
          moduleOfObject_run object (after (Session.importObject name) s)
        refine .inr ⟨object, m, t, asked, run, found, modules, refs, ?_⟩
        dsimp only
        rw [after_bind_of_ok run]
        exact after_discard (loadCell r name m) (some r) t

theorem lookupModule (name : String) : Roams L R (Session.lookupModule name) fun _ => True := by
  refine fun s hs => ⟨?_, fun _ _ _ => trivial⟩
  rcases after_lookupModule name s with ends | ⟨r, cell, idle, ends | ⟨object, m, t, offered, run, found,
    modules, refs, ends⟩⟩
  · rw [ends]
  · rw [ends]
    exact (importObject (L := L) (R := R) name s hs).1.tail (.settle r idle)
  · rw [ends]
    have asked := importObject (L := L) (R := R) name s hs
    have made := (moduleOfObject (L := L) (Realm.Guards.closed_all hs asked.1) (.of_imported offered)).1
    rw [after_of_ok run] at made
    refine (asked.1.trans made).tail (.load r name object m ?_ ?_ found)
    · rw [peek?, modules]
      exact cell
    · rw [ref, refs]
      exact idle

/-- What is looked up is the cell of the name. -/
theorem lookupModule_eq_ok {name : String} {s t : Session} {found : Option RefId}
    (h : Session.lookupModule name s = .ok found t) : found = s.peek? name := by
  simp only [Session.lookupModule, read_run] at h
  cases hp : s.peek? name with
  | none =>
    rw [hp] at h
    cases h
    rfl
  | some r =>
    simp only [hp, read_run] at h
    split at h
    · cases h
      rfl
    · obtain ⟨object, a, _, h⟩ := bind_eq_ok h
      cases object with
      | none =>
        obtain ⟨_, b, _, h⟩ := bind_eq_ok h
        cases h
        rfl
      | some object =>
        obtain ⟨m, b, _, h⟩ := bind_eq_ok h
        obtain ⟨_, c, _, h⟩ := bind_eq_ok h
        obtain ⟨_, d, _, h⟩ := bind_eq_ok h
        obtain ⟨_, e, _, h⟩ := bind_eq_ok h
        cases h
        rfl

theorem present_of_module {ref : ModuleRef} {m : ValueId} (h : ref.present = some m) :
    ref.module = some m := by
  simp only [ModuleRef.present] at h
  split at h
  · exact h
  · cases h

theorem moduleNamed (name : String) : Roams L R (Session.moduleNamed name) R.found := by
  intro s hs
  obtain ⟨touches, _⟩ := lookupModule (L := L) name s hs
  cases h : Session.lookupModule name s with
  | error e t =>
    rw [after_of_error h] at touches
    rw [Session.moduleNamed, after_bind_of_error h, bind_of_error h]
    exact ⟨touches, fun _ _ ha => nomatch ha⟩
  | ok found t =>
    rw [after_of_ok h] at touches
    have cell := lookupModule_eq_ok h
    rw [Session.moduleNamed, after_bind_of_ok h, bind_of_ok h]
    cases found with
    | none => exact ⟨touches, fun a r ha => by cases ha; exact Realm.found_none⟩
    | some r =>
      refine ⟨touches, fun a q ha => ?_⟩
      cases ha
      intro m hm
      refine (Realm.Guards.closed_all hs touches).modules name r m ?_ (present_of_module hm)
      rw [peek?, modules_of_touches touches]
      exact cell.symm

theorem builtinsModule : Roams L R Session.builtinsModule R.found := .read fun _ _ => moduleNamed _

/-- The alternatives of a value belong to the realm. -/
theorem multiple_of_closed {s : Session} (hs : R.Closed s) {v : ValueId} (hv : R.value v)
    {members : List ValueId} (h : s.form v = .multiple members) : ∀ m ∈ members, R.value m := by
  have parts := hs.form v hv
  rw [h] at parts
  exact parts

theorem childWithin (name : String) (depth : Nat) {m : ValueId} (hm : R.value m) :
    Roams L R (Session.childWithin name depth m) R.found := by
  induction depth generalizing m with
  | zero => exact throw _
  | succ depth ih =>
    refine .read fun s hs => ?_
    dsimp only
    split
    · next members hf =>
      exact .bind (.mapM fun other ho => ih (multiple_of_closed hs hm hf other ho)) fun _ hall =>
        aggregate hall
    · exact moduleNamed _
    · exact moduleNamed _
    · exact .pure Realm.found_none

theorem childModule {m : ValueId} (hm : R.value m) (name : String) :
    Roams L R (Session.childModule m name) R.found :=
  .read fun _ _ => childWithin name _ hm

theorem childrenInTable (name : String) :
    Roams L R (Session.childrenInTable name) fun _ => True :=
  .read fun _ _ => .bind (.filterMapM fun _ _ => .bind (moduleNamed _) fun _ _ => .pure trivial)
    fun _ _ => .pure trivial

theorem childrenWithin (depth : Nat) (m : ValueId) :
    Roams L R (Session.childrenWithin depth m) fun _ => True := by
  induction depth generalizing m with
  | zero => exact throw _
  | succ depth ih =>
    refine .read fun s _ => ?_
    dsimp only
    split
    · exact .bind (.mapM fun other _ => ih other) fun _ _ => .pure trivial
    · exact childrenInTable _
    · exact childrenInTable _
    · exact .pure trivial

theorem childModules (m : ValueId) : Roams L R (Session.childModules m) fun _ => True :=
  .read fun _ _ => childrenWithin _ m

theorem fromMemberWithin (depth : Nat) (object : Option ObjectId) (names : List String) :
    Roams L R (Session.fromMemberWithin depth object names) R.found := by
  induction depth generalizing object names with
  | zero =>
    cases object with
    | none => exact .pure Realm.found_none
    | some object => exact throw _
  | succ depth ih =>
    cases object with
    | none => exact .pure Realm.found_none
    | some object =>
      cases names with
      | nil => exact valueOf _
      | cons name rest =>
        refine .read fun s _ => ?_
        dsimp only
        split
        · exact ih _ _
        · exact ih _ _
        · exact ih _ _
        · exact .bind (.mapM fun other _ => ih other _) fun _ hall => aggregate hall
        · exact .pure Realm.found_none

theorem fromMember (object : Option ObjectId) (names : List String) :
    Roams L R (Session.fromMember object names) R.found :=
  .read fun _ _ => fromMemberWithin _ object names

theorem fromHostModule (object : Option ObjectId) (name : String) (rest : List String) :
    Roams L R (Session.fromHostModule object (name :: rest)) R.found := by
  cases object with
  | none => exact .pure Realm.found_none
  | some object => exact .read fun _ _ => fromMember _ rest

theorem fromModule {module : Found} (hm : R.found module) (names : List String) :
    Roams L R (Session.fromModule module names) R.found := by
  induction names generalizing module with
  | nil =>
    cases module with
    | none => exact .pure Realm.found_none
    | some m => exact .pure hm
  | cons name rest ih =>
    cases module with
    | none => exact .pure Realm.found_none
    | some m =>
      refine .read fun s _ => ?_
      dsimp only
      refine .ite (.pure Realm.found_none) (.bind (childModule (hm m rfl) name) fun child hc => ?_)
      split
      · exact fromHostModule _ _ _
      · exact ih hc

/-- What the host lets import are modules. -/
theorem importedModule (name : String) :
    Roams L R (do
      match ← Session.importObject name with
      | none => return none
      | some object => Session.moduleOfObject object) R.found := by
  intro s hs
  have asked := importObject (L := L) (R := R) name s hs
  have closed := Realm.Guards.closed_all hs asked.1
  have run : Session.importObject name s =
      .ok (s.host.importable.find? name) (after (Session.importObject name) s) := rfl
  rw [after_bind_of_ok run, bind_of_ok run]
  cases offered : s.host.importable.find? name with
  | none => exact ⟨asked.1, fun _ _ ha => by cases ha; exact Realm.found_none⟩
  | some object =>
    have made := moduleOfObject (L := L) closed (.of_imported offered)
    exact ⟨asked.1.trans made.1, made.2⟩

theorem topModule (name : String) : Roams L R (Session.topModule name) R.found := by
  refine .bind (moduleNamed name) fun found hf => ?_
  cases found with
  | some m => exact .pure hf
  | none => exact importedModule name

theorem importDotted (name : String) (bottom : Bool) :
    Roams L R (Session.importDotted name bottom) R.found := by
  unfold Session.importDotted
  split
  · exact .pure Realm.found_none
  · refine .ite (.pure Realm.found_none) (.bind (topModule _) fun top ht => ?_)
    split
    · exact .pure Realm.found_none
    · exact .pure ht
    · refine .bind (fromModule ht _) fun last hl => .pure ?_
      split
      · exact hl
      · split
        · exact ht
        · exact Realm.found_none

theorem watch (name : String) (u : UnitId) : Roams L R (Session.watch name u) fun _ => True :=
  of_step (fun _ => .bookkeep (by constructor <;> rfl)) (of_change fun _ _ => .watch name u)

theorem resolveModule (name : String) (u : UnitId) :
    Roams L R (Session.resolveModule name u) R.found := by
  refine .ite (.pure Realm.found_none) (.bind (moduleNamed name) fun found hf => ?_)
  cases found with
  | some m => exact .pure hf
  | none =>
    refine .bind (importDotted name true) fun found hf => ?_
    cases found with
    | some m => exact .pure hf
    | none => exact .bind (watch name u) fun _ _ => .pure Realm.found_none

end Typeflow.Session.Roams
