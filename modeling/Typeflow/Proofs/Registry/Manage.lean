import Typeflow.Proofs.Registry.Equip

/-! What callers do to the modules of a session: besides what registrations and edits of programs consist of,
names and paths are bound and forgotten. -/
namespace Typeflow.Session

/-- At most the names and the paths of modules, their cells and what is noted about them differ. -/
def Relabels (s t : Session) : Prop :=
  t = { s with modules := t.modules, modulesByPath := t.modulesByPath, refs := t.refs, entries := t.entries }

/-- What callers do to modules consists of changes of this kind. -/
structure Manages (T : Session → Session → Prop) : Prop extends Refreshes T, Edits T where
  relabel : ∀ {s t}, Relabels s t → T s t

namespace Manages

open Within

variable {T : Session → Session → Prop}

theorem invalidate (h : Manages T) (r : RefId) : Within .all T (Session.invalidate r) fun _ => True :=
  .of_change fun _ _ => h.relabel rfl

theorem resetModules (h : Manages T) : Within .all T Session.resetModules fun _ => True := by
  refine .read fun s _ => .bind (.forM fun _ _ => h.invalidate _) fun _ _ =>
    .bind (.of_change fun _ _ => h.relabel rfl) fun _ _ => .forM fun name _ => .read fun _ _ =>
      .ite ?_ (.pure trivial)
  exact .bind (Q := fun _ => True) (.of_change fun _ _ => h.relabel rfl) fun _ _ =>
    .of_change fun _ _ => h.relabel rfl

theorem forgetName (h : Manages T) (name : String) (m : ValueId) :
    Within .all T (Session.forgetName name m) fun _ => True := by
  refine .ite (.pure trivial) (.read fun s _ => ?_)
  split
  · exact .pure trivial
  · refine .read fun _ _ => .ite (.bind (Q := fun _ => True) (.read fun t _ => ?_) fun _ _ =>
      h.invalidate _) (.pure trivial)
    split
    · exact .pure trivial
    · exact .ite (.pure trivial) (.bind (.of_change fun _ _ => h.relabel rfl) fun _ _ => .pure trivial)

theorem forgetPath (h : Manages T) (path : String) (m : ValueId) :
    Within .all T (Session.forgetPath path m) fun _ => True := by
  refine .of_change fun s _ => ?_
  rw [Session.forgetPath, after_modify]
  split
  · exact h.relabel rfl
  · exact h.relabel rfl

theorem removeModule (h : Manages T) (e : Option EntryId) :
    Within .all T (Session.removeModule e) fun _ => True := by
  cases e with
  | none => exact throw _
  | some e =>
    exact .read fun s _ => .ite (.pure trivial) (.bind (h.forgetPath _ _) fun _ _ =>
      .bind (h.forgetName _ _) fun _ _ => .bind (.of_change fun _ _ => h.relabel rfl) fun _ _ =>
        .bind (h.retireEntry e false) fun _ _ => .bind (h.of_clears (.clearModule _)) fun _ _ =>
          .bind (h.fine (.count _ _)) fun _ _ => h.fine (.writeLog _ _))

theorem setModule (h : Manages T) (name : String) (r : RefId) :
    Within .all T (Session.setModule name r) fun _ => True := by
  have bind : Within .all T (modify fun s => { s with modules := s.modules.insert name r }) fun _ => True :=
    .of_change fun _ _ => h.relabel rfl
  refine .read fun s _ => ?_
  split
  · exact .ite (.bind (h.invalidate _) fun _ _ => bind) bind
  · exact bind

/-- A module gets its name. -/
theorem bindModule (h : Manages T) (name : String) (m : ValueId) :
    Within .all T (Session.bindModule name m) fun _ => True :=
  .bind (Q := fun _ => True) (.of_change fun _ _ => h.relabel rfl) fun _ _ =>
    .bind (h.setModule name _) fun _ _ => h.installFor name

end Manages

/-- Values and records are the same, and so is what is remembered; the host may have made more types. -/
structure Elsewhere (s t : Session) : Prop where
  values : t.values = s.values
  tables : t.memoTables = s.memoTables
  records : t.records = s.records
  shelf : t.shelf = s.shelf
  options : t.options = s.options
  host : s.host.Grows t.host

/-- The relation also holds of each change elsewhere, and so of what callers do. -/
structure Sustains (T : Session → Session → Prop) : Prop extends Spans T where
  elsewhere : ∀ {s t}, Elsewhere s t → T s t

namespace Sustains

variable {T : Session → Session → Prop} {α : Type} {m : Analysis α} {Q : α → Prop}

/-- Whatever follows from the relation is sustained too, if it may be repeated. -/
theorem mono {U : Session → Session → Prop} (h : Sustains T) (weaker : ∀ {s t}, T s t → U s t)
    (trans : ∀ {s t q}, U s t → U t q → U s q) : Sustains U where
  refl s := weaker (h.refl s)
  trans := trans
  change c := weaker (h.change c)
  lookup c := weaker (h.lookup c)
  names c s := weaker (h.names c s)
  replace s m qualified spec := weaker (h.replace s m qualified spec)
  wrap s v w free := weaker (h.wrap s v w free)
  ref s r m := weaker (h.ref s r m)
  elsewhere other := weaker (h.elsewhere other)

theorem within (h : Sustains T) (hm : Within .all T m Q) (s : Session) : T s (after m s) :=
  hm.whole h.refl h.trans s

theorem refreshes (h : Sustains T) : Refreshes T where
  furnish := h.furnish
  log _ _ := h.elsewhere ⟨rfl, rfl, rfl, rfl, rfl, .of_eq rfl⟩
  tell _ _ := h.elsewhere ⟨rfl, rfl, rfl, rfl, rfl, .of_objects rfl rfl rfl rfl rfl⟩
  clear := h.clearing

theorem manages (h : Sustains T) : Manages T where
  toRefreshes := h.refreshes
  change := h.change
  retire _ _ := h.elsewhere ⟨rfl, rfl, rfl, rfl, rfl, .of_eq rfl⟩
  release s := by
    obtain ⟨_, ends⟩ := releaseRetired_lets_go s
    rw [ends]
    exact h.elsewhere ⟨rfl, rfl, rfl, rfl, rfl, .of_eq rfl⟩
  relabel relabels := by
    rw [relabels]
    exact h.elsewhere ⟨rfl, rfl, rfl, rfl, rfl, .of_eq rfl⟩

theorem covers (h : Sustains T) : Operation.Covers T where
  toEdits := h.manages.toEdits
  touch := h.touch

/-- What follows the making of a module. -/
theorem bindListed (h : Sustains T) (name path : String) (s : Session) :
    T (s.withListed name path) (after (addModule name path) s) := by
  have wakes : Within .all T (wake name) fun _ => True :=
    .bind (Q := fun _ => True) (.of_change fun _ _ => h.elsewhere ⟨rfl, rfl, rfl, rfl, rfl, .of_eq rfl⟩) fun _ _ =>
      .bind (.forM fun u _ => h.covers.fine (.enqueue u .back)) fun _ _ =>
        .of_change fun _ _ => h.elsewhere ⟨rfl, rfl, rfl, rfl, rfl, .of_eq rfl⟩
  rw [after_addModule]
  split
  · exact h.elsewhere ⟨rfl, rfl, rfl, rfl, rfl, .of_eq rfl⟩
  · exact h.trans (h.within (h.manages.bindModule name _) _) (h.within wakes _)

theorem addModule (h : Sustains T) {name path : String} {s : Session} (listed : T s (s.withListed name path)) :
    T s (after (addModule name path) s) :=
  h.trans listed (h.bindListed name path s)

theorem load (h : Sustains T) (s : Session) : T s (after load s) := by
  have loads : Within .all T Session.load fun _ => True :=
    .bind h.manages.resetModules fun _ _ => h.refreshes.loaded
  exact h.within loads s

theorem reload (h : Sustains T) (s : Session) (cleared : ∀ s, T s (after clearCaches s)) :
    T s (after reload s) := by
  rw [after_reload_equips]
  exact h.trans (h.trans (h.within h.manages.resetModules s) (cleared _)) (h.within h.refreshes.reloaded _)

/-- What callers do, apart from what the making of a module, a reload and edits of resources do themselves. -/
theorem operation (h : Sustains T) {o : Operation} {s : Session}
    (listed : ∀ name path, o = .addModule name path → T s (s.withListed name path))
    (cleared : o = .reload → ∀ s, T s (after clearCaches s))
    (edits : ∀ r f s, o.edit? = some (r, f) → T s (after (updateResource r f) s)) : T s (after o.run s) := by
  have evaluation : o.evaluates → T s (after o.run s) := fun evaluates =>
    h.within (h.covers.run o evaluates edits) s
  cases o with
  | addModule name path =>
    rw [show after (Operation.addModule name path).run s = after (Session.addModule name path) s from
      after_ignore _ s]
    exact h.addModule (listed name path rfl)
  | removeModule e => exact h.within (h.manages.removeModule e) s
  | reload => exact h.reload s (cleared rfl)
  | specialize request => exact h.within (h.refreshes.fulfil request) s
  | installFor name => exact h.within (h.refreshes.installFor name) s
  | installEvery => exact h.within h.refreshes.installEvery s
  | _ => exact evaluation trivial

end Sustains

namespace Endures

theorem sustains : Sustains Endures where
  toSpans := spans
  elsewhere other := of_same other.host other.shelf

/-- One more module of the project has nothing to do with the host. -/
theorem withListed (s : Session) (name path : String) : Endures s (s.withListed name path) := by
  unfold Session.withListed
  split <;> exact of_same (.of_eq rfl) rfl

end Endures

end Typeflow.Session
