import Typeflow.Proofs.Realm.Recall

/-! The changes that the evaluation of a program makes, told apart by what they do to the table of
modules: most leave it alone, and some load a module and install what waits for it. -/
namespace Typeflow.Session

/-- Gives a cell its module and installs what waits for the module. -/
def loadCell (r : RefId) (name : String) (m : Found) : Analysis Unit := do
  updateRef r fun ref => { ref with module := m, loaded := true }
  writeLog .modules ("loaded builtin module " ++ name)
  installFor name

def withReplacement (s : Session) (m : ValueId) (qualified : String) (spec : Specialization) : Session :=
  s.setValue m { s.value m with table := (s.value m).table.insert qualified spec }

/-- Small changes that no program makes, or a replacement that is put into the table of a module. -/
inductive Furnish (R : Realm) (s : Session) : Session → Prop
  | steps {t : Session} (h : Steps noLicence s t) (fine : Changes R s t) : Furnish R s t
  | specialize (m : ValueId) (qualified : String) (spec : Specialization)
      (h : R.override spec.override) : Furnish R s (after (specializeModule m qualified spec) s)

/-- What an evaluation does next: steps of the program that leave the table of modules alone, lookups in
memo tables, the making of a wrapper for a function, the queueing of a module, or the loading of a cell. A
name that the host does not know is loaded without a module. -/
inductive Touch (L : Licence) (R : Realm) (s : Session) : Session → Prop
  | steps {t : Session} (h : Steps L s t) (fine : Changes R s t) : Touch L R s t
  | lookup {t : Session} (h : Recalled L R s t) : Touch L R s t
  | wrap (u : UnitId) (body : Body) (v w : ValueId) (licensed : L.define u body) (hw : R.value w)
      (free : (s.value v).kept? .wrapper = none) :
      Touch L R s (s.setValue v ((s.value v).keep .wrapper w))
  | renew (e : EntryId) : Touch L R s (after (enqueueEntry e) s)
  | settle (r : RefId) (idle : (s.ref r).loaded = false) :
      Touch L R s (after (updateRef r fun ref => { ref with module := none, loaded := true }) s)
  | load (r : RefId) (name : String) (object : ObjectId) (m : Found) (cell : s.peek? name = some r)
      (idle : (s.ref r).loaded = false) (made : s.objectValues.find? object = some m) :
      Touch L R s (after (loadCell r name m) s)

/-- Any number of them. -/
def Touches (L : Licence) (R : Realm) : Session → Session → Prop := Relation.ReflTransGen (Touch L R)

theorem ref_modify (s : Session) (r q : RefId) (f : ModuleRef → ModuleRef) :
    ({ s with refs := s.refs.modify r.index f } : Session).ref q =
      if q = r ∧ r.index < s.refs.size then f (s.ref q) else s.ref q := by
  simp only [Session.ref, getD_modify]
  cases q; cases r; simp

namespace Realm.Closed

variable {R : Realm} {s : Session}

theorem replacement (h : R.Closed s) (m : ValueId) (qualified : String) {spec : Specialization}
    (hs : R.override spec.override) : R.Closed (s.withReplacement m qualified spec) := by
  refine h.setValue (h.form m) (fun slot w hw hv => h.kept m hv slot w hw) fun q found hf => ?_
  rw [NameMap.find?_insert] at hf
  split at hf
  · cases hf
    exact hs
  · exact h.table m q found hf

theorem updateRef (h : R.Closed s) (r : RefId) {f : ModuleRef → ModuleRef}
    (hf : ∀ m, (f (s.ref r)).module = some m → R.value m) :
    R.Closed (after (updateRef r f) s) :=
  { h with
    modules := by
      intro name q m hq hm
      have look := ref_modify s r q f
      split at look
      · next same =>
        refine hf m ?_
        rw [← same.1, ← look]
        exact hm
      · refine h.modules name q m hq ?_
        rw [← look]
        exact hm }

end Realm.Closed

/-- The table gets an entry, and the module is queued if it has a tree. -/
theorem after_specializeModule (m : ValueId) (qualified : String) (spec : Specialization) (s : Session) :
    (∀ p, s.form m = .module p → (s.entry p.entry).tree = none) ∧
        after (specializeModule m qualified spec) s = s.withReplacement m qualified spec ∨
      ∃ p, s.form m = .module p ∧ (s.entry p.entry).tree.isSome = true ∧
        after (specializeModule m qualified spec) s =
          after (enqueueEntry p.entry) (s.withReplacement m qualified spec) := by
  have run : ∀ rest : Analysis Unit,
      after (do
        modify (setValue m { s.value m with table := (s.value m).table.insert qualified spec })
        rest) s = after rest (s.withReplacement m qualified spec) := fun _ => rfl
  simp only [specializeModule, after_read, run]
  cases h : s.form m with
  | module p =>
    rw [form] at h
    rw [h]
    simp only [after_read]
    split
    · next current => exact .inr ⟨p, rfl, current, rfl⟩
    · next free =>
      refine .inl ⟨?_, rfl⟩
      rintro _ ⟨⟩
      rw [Option.not_isSome_iff_eq_none] at free
      exact free
  | _ =>
    rw [form] at h
    rw [h]
    refine .inl ⟨?_, rfl⟩
    rintro _ ⟨⟩

instance (R : Realm) : R.Guards (Furnish R) where
  closed := by
    rintro s t hs (⟨_, fine⟩ | ⟨m, qualified, spec, h⟩)
    · exact hs.changes fine
    · have replaced := hs.replacement m qualified h
      rcases after_specializeModule m qualified spec s with ⟨-, ends⟩ | ⟨p, -, -, ends⟩ <;> rw [ends]
      · exact replaced
      · exact Realm.Guards.closed_all replaced (Clears.enqueueEntry p.entry _ replaced).1

/-- What is furnished consists of small changes, of names that go and of entries in tables. -/
theorem Furnish.through {R : Realm} {T : Session → Session → Prop} (refl : ∀ s, T s s)
    (trans : ∀ s t r, T s t → T t r → T s r) (clearing : ∀ {R s t}, Clearing R s t → T s t)
    (replace : ∀ s m qualified spec, T s (s.withReplacement m qualified spec)) {s t : Session}
    (h : Furnish R s t) : T s t := by
  have all : ∀ {R s t}, Relation.ReflTransGen (Clearing R) s t → T s t := by
    intro R s t steps
    induction steps with
    | refl => exact refl s
    | tail _ step ih => exact trans _ _ _ ih (clearing step)
  cases h with
  | steps h fine => exact all (Relation.ReflTransGen.mono (fun _ _ c => .change c) _ _ fine)
  | specialize m qualified spec h =>
    have first := replace s m qualified spec
    rcases after_specializeModule m qualified spec s with ⟨-, ends⟩ | ⟨p, -, -, ends⟩ <;> rw [ends]
    · exact first
    · exact trans _ _ _ first (all (Clears.enqueueEntry p.entry _ (Realm.closed_all _)).1)

namespace Fine

variable {R : Realm} {α : Type} {m : Analysis α}

/-- Books may be kept where modules are furnished. -/
theorem furnish (h : Fine R m fun _ => True) (books : ∀ s, Bookkeeping s (after m s)) :
    Within R (Furnish R) m fun _ => True :=
  .of_change fun s hs => .steps (.single (.bookkeep (books s))) (h s hs).1

end Fine

section Install

open Within

variable {R : Realm}

theorem count_within (name : String) (delta : Nat) :
    Within R (Furnish R) (Session.count name delta) fun _ => True :=
  (Fine.count name delta).furnish fun _ => by constructor <;> rfl

theorem writeLog_within (category : LogCategory) (message : String) :
    Within R (Furnish R) (Session.writeLog category message) fun _ => True :=
  (Fine.writeLog category message).furnish fun _ => by constructor <;> rfl

theorem install_within {r : Registration} (h : R.override r.specialization.override) :
    Within R (Furnish R) (install r) fun _ => True := by
  refine .read fun s _ => ?_
  split
  · exact writeLog_within _ _
  · exact .bind (Within.of_change fun _ _ => .specialize _ _ _ h) fun _ _ =>
      .bind (count_within _ _) fun _ _ => .read fun _ _ => writeLog_within _ _

private theorem installFor_within (name : String) :
    Within R (Furnish R) (installFor name) fun _ => True := by
  refine .read fun s hs => .forM fun r hr => install_within ?_
  obtain ⟨pair, hp, hr⟩ := List.mem_flatMap.1 hr
  split at hr
  · exact hs.log pair hp r hr
  · cases hr

end Install

theorem Realm.Closed.loadCell {R : Realm} {s : Session} (h : R.Closed s) (r : RefId) (name : String)
    {m : Found} (hm : R.found m) : R.Closed (after (loadCell r name m) s) := by
  let f : ModuleRef → ModuleRef := fun ref => { ref with module := m, loaded := true }
  have bound : R.Closed (after (Session.updateRef r f) s) := h.updateRef r hm
  have rest : Within R (Furnish R) (do
      writeLog .modules ("loaded builtin module " ++ name)
      installFor name) fun _ => True :=
    .bind (writeLog_within _ _) fun _ _ => installFor_within name
  exact Realm.Guards.closed_all bound (rest _ bound).1

/-- Small changes leave the table of modules and its cells alone. -/
theorem Clearing.modules {R : Realm} {s t : Session} (c : Clearing R s t) :
    t.modules = s.modules ∧ t.refs = s.refs := by
  rcases c with c | c
  · cases c with
    | beside b => exact ⟨b.modules, b.refs⟩
    | _ => exact ⟨rfl, rfl⟩
  · exact ⟨rfl, rfl⟩

private theorem modules_of_clearing {R : Realm} {s t : Session} (c : Relation.ReflTransGen (Clearing R) s t) :
    t.modules = s.modules ∧ t.refs = s.refs := by
  induction c with
  | refl => exact ⟨rfl, rfl⟩
  | tail _ c ih => exact ⟨c.modules.1.trans ih.1, c.modules.2.trans ih.2⟩

private theorem modules_of_changes {R : Realm} {s t : Session} (c : Changes R s t) :
    t.modules = s.modules ∧ t.refs = s.refs :=
  modules_of_clearing (Relation.ReflTransGen.mono (fun _ _ c => .change c) _ _ c)

theorem Furnish.modules {R : Realm} {s t : Session} (c : Furnish R s t) :
    t.modules = s.modules ∧ t.refs = s.refs :=
  Furnish.through (T := fun s t => t.modules = s.modules ∧ t.refs = s.refs) (fun _ => ⟨rfl, rfl⟩)
    (fun _ _ _ h g => ⟨g.1.trans h.1, g.2.trans h.2⟩) Clearing.modules (fun _ _ _ _ => ⟨rfl, rfl⟩) c

theorem modules_of_furnish {R : Realm} {s t : Session} (c : Relation.ReflTransGen (Furnish R) s t) :
    t.modules = s.modules ∧ t.refs = s.refs := by
  induction c with
  | refl => exact ⟨rfl, rfl⟩
  | tail _ c ih => exact ⟨c.modules.1.trans ih.1, c.modules.2.trans ih.2⟩

/-- Loading gives the cell its module and furnishes modules. -/
theorem furnish_loadCell (r : RefId) (name : String) (m : Found) (s : Session) :
    Relation.ReflTransGen (Furnish .all)
      (after (updateRef r fun ref => { ref with module := m, loaded := true }) s)
      (after (loadCell r name m) s) := by
  have rest : Within .all (Furnish .all) (do
      writeLog .modules ("loaded builtin module " ++ name)
      installFor name) fun _ => True :=
    .bind (writeLog_within _ _) fun _ _ => installFor_within name
  exact (rest _ (Realm.closed_all _)).1

/-- The names keep their cells. -/
theorem Touch.modules {L : Licence} {R : Realm} {s t : Session} (c : Touch L R s t) :
    t.modules = s.modules := by
  cases c with
  | steps _ fine => exact (modules_of_changes fine).1
  | lookup h =>
    exact h.through (T := fun s t => t.modules = s.modules) (fun _ => rfl) (fun h g => g.trans h)
      (fun c => (Clearing.change c).modules.1) fun p => p.modules
  | wrap | settle => rfl
  | renew e => exact (modules_of_clearing (Clears.enqueueEntry e s (Realm.closed_all s)).1).1
  | load r name object m => exact (modules_of_furnish (furnish_loadCell r name m s)).1

theorem modules_of_touches {L : Licence} {R : Realm} {s t : Session} (c : Touches L R s t) :
    t.modules = s.modules := by
  induction c with
  | refl => rfl
  | tail _ c ih => exact c.modules.trans ih

/-- The relation holds of each small change that evaluations consist of which wrap no function, and of one after
another. -/
structure SpansBare (T : Session → Session → Prop) : Prop where
  refl : ∀ s, T s s
  trans : ∀ {s t q}, T s t → T t q → T s q
  change : ∀ {R s t}, Change R s t → T s t
  lookup : ∀ {L R s t}, Recalled L R s t → T s t
  names : ∀ c s, T s (after (clearNames c) s)
  replace : ∀ s m qualified spec, T s (s.withReplacement m qualified spec)
  ref : ∀ s r m, T s (after (updateRef r fun ref => { ref with module := m, loaded := true }) s)

/-- The relation holds of each small change that evaluations consist of, and of one after another. -/
structure Spans (T : Session → Session → Prop) : Prop extends SpansBare T where
  wrap : ∀ s v w, (s.value v).kept? .wrapper = none → T s (s.setValue v ((s.value v).keep .wrapper w))

section Spans

variable {L : Licence} {R : Realm} {s t : Session} {T U : Session → Session → Prop}

namespace SpansBare

theorem all (h : SpansBare T) (each : ∀ s t, U s t → T s t) (steps : Relation.ReflTransGen U s t) : T s t := by
  induction steps with
  | refl => exact h.refl s
  | tail _ step ih => exact h.trans ih (each _ _ step)

theorem clearing (h : SpansBare T) (c : Clearing R s t) : T s t := by
  cases c with
  | change c => exact h.change c
  | names c => exact h.names c s

theorem furnish (h : SpansBare T) (f : Furnish R s t) : T s t :=
  f.through h.refl (fun _ _ _ => h.trans) h.clearing h.replace

/-- Functions are wrapped where a unit is licensed to define them. -/
theorem touch_or (h : SpansBare T) (touch : Touch L R s t)
    (wrap : ∀ u body v w, L.define u body → (s.value v).kept? .wrapper = none →
      T s (s.setValue v ((s.value v).keep .wrapper w))) : T s t := by
  cases touch with
  | steps _ fine => exact h.all (fun _ _ => h.change) fine
  | lookup c => exact h.lookup c
  | wrap u body v w licensed hw free => exact wrap u body v w licensed free
  | renew e => exact h.all (fun _ _ => h.clearing) (Clears.enqueueEntry e s (Realm.closed_all s)).1
  | settle r => exact h.ref s r none
  | load r name object m => exact h.trans (h.ref s r m) (h.all (fun _ _ => h.furnish) (furnish_loadCell r name m s))

end SpansBare

theorem Spans.touch (h : Spans T) (touch : Touch L R s t) : T s t :=
  h.touch_or touch fun _ _ v w _ free => h.wrap s v w free

end Spans

namespace Endures

variable {L : Licence} {R : Realm} {s t : Session}

theorem spans : Spans Endures where
  refl := refl
  trans := trans
  change := of_change
  lookup c := c.through refl trans of_change Reserves.endures
  names _ _ := of_same (.of_eq rfl) rfl
  replace _ _ _ _ := of_same (.of_eq rfl) rfl
  wrap _ _ _ _ := of_same (.of_eq rfl) rfl
  ref _ _ _ := of_same (.of_eq rfl) rfl

theorem of_touches (touches : Touches L R s t) : Endures s t := of_all (fun _ _ => spans.touch) touches

end Endures

instance (L : Licence) (R : Realm) : R.Guards (Touch L R) where
  closed := by
    rintro s t hs
      (⟨_, fine⟩ | recalled | ⟨u, body, v, w, _, hw⟩ | e | ⟨r, _⟩ | ⟨r, name, object, m, _, _, made⟩)
    · exact hs.changes fine
    · exact Realm.Guards.closed hs recalled
    · refine hs.setValue (hs.form v) (fun slot other hk hv => ?_) (hs.table v)
      rw [Value.kept?_keep] at hk
      split at hk
      · cases hk
        exact hw
      · exact hs.kept v hv slot other hk
    · exact Realm.Guards.closed_all hs (Clears.enqueueEntry e s hs).1
    · exact hs.updateRef r nofun
    · refine hs.loadCell r name fun v hv => hs.objects object v ?_
      rw [made, hv]

end Typeflow.Session
