import Typeflow.Proofs.Registry.Equip

/-! Changes after which names and paths stand for what they stood for: at most the host was asked for
the module of a cell that was not loaded. -/
namespace Typeflow.Session

variable {s t q : Session}

/-- The table of modules and its cells are kept. Only cells that are not loaded may get something from
the host, which is neither a module of the project nor a set of alternatives. -/
structure SameCells (s t : Session) : Prop where
  modules : t.modules = s.modules
  names : t.host.moduleNames = s.host.moduleNames
  cells : t.refs.size = s.refs.size
  size : s.values.size ≤ t.values.size
  kind : ∀ v, v.index < s.values.size → (t.form v).kind = (s.form v).kind
  hosted : Hosted s → Hosted t
  ref : Hosted s → ∀ r, t.ref r = s.ref r ∨
    (s.ref r).loaded = false ∧ (t.ref r).valid = (s.ref r).valid ∧
      ∀ m, (t.ref r).module = some m → m.index < t.values.size ∧ Foreign (t.form m).kind

theorem SameCells.trans (h : SameCells s t) (g : SameCells t q) : SameCells s q where
  modules := g.modules.trans h.modules
  names := g.names.trans h.names
  cells := g.cells.trans h.cells
  size := Nat.le_trans h.size g.size
  kind v hv := (g.kind v (Nat.lt_of_lt_of_le hv h.size)).trans (h.kind v hv)
  hosted hosted := g.hosted (h.hosted hosted)
  ref hosted r := by
    have first := h.ref hosted r
    have second := g.ref (h.hosted hosted) r
    rcases second with kept | ⟨idle, valid, found⟩
    · rw [kept]
      refine first.imp_right fun ⟨idle, valid, found⟩ => ⟨idle, valid, fun m hm => ?_⟩
      obtain ⟨there, kind⟩ := found m hm
      rw [g.kind m there]
      exact ⟨Nat.lt_of_lt_of_le there g.size, kind⟩
    · rcases first with kept | ⟨before, same, -⟩
      · rw [kept] at idle valid
        exact .inr ⟨idle, valid, found⟩
      · exact .inr ⟨before, valid.trans same, found⟩

/-- The index of paths and the labels of modules are kept too. -/
structure Steady (s t : Session) : Prop extends SameCells s t where
  outside : t.outside = s.outside

private theorem moduleNames_of_outside (h : t.outside = s.outside) : t.host.moduleNames = s.host.moduleNames :=
  congrArg (·.1) h

namespace Steady

theorem of_remote (h : Remote s t) : Steady s t where
  modules := h.modules
  names := moduleNames_of_outside h.outside
  cells := congrArg Array.size h.refs
  size := h.size
  kind := h.kind
  hosted := h.hosted
  ref _ r := .inl (by rw [Session.ref, Session.ref, h.refs])
  outside := h.outside

theorem refl (s : Session) : Steady s s := of_remote (.refl s)

theorem trans (h : Steady s t) (g : Steady t q) : Steady s q :=
  ⟨h.toSameCells.trans g.toSameCells, g.outside.trans h.outside⟩

theorem of_all {T : Session → Session → Prop} (h : ∀ s t, T s t → Steady s t)
    (steps : Relation.ReflTransGen T s t) : Steady s t := by
  induction steps with
  | refl => exact .refl s
  | tail _ step ih => exact ih.trans (h _ _ step)

/-- The tables of replacements and the log do not matter. -/
theorem of_tables (modules : t.modules = s.modules) (refs : t.refs = s.refs)
    (objects : t.objectValues = s.objectValues) (outside : t.outside = s.outside)
    (size : t.values.size = s.values.size) (kind : ∀ v, (t.form v).kind = (s.form v).kind) :
    Steady s t where
  modules := modules
  names := moduleNames_of_outside outside
  cells := by rw [refs]
  size := Nat.le_of_eq size.symm
  kind v _ := kind v
  hosted hosted o v hv := by
    rw [size, kind]
    exact hosted o v (objects ▸ hv)
  ref _ r := .inl (by rw [Session.ref, Session.ref, refs])
  outside := outside

theorem of_clearing {R : Realm} (c : Clearing R s t) : Steady s t := of_remote (.of_clearing c)

theorem of_furnish {R : Realm} (h : Furnish R s t) : Steady s t := by
  refine Furnish.through refl (fun _ _ _ => trans) of_clearing (fun s m qualified spec => ?_) h
  refine of_tables rfl rfl rfl rfl (by simp [withReplacement, setValue]) fun v => ?_
  rw [form, value_withReplacement]
  split
  · next same => rw [same.1]; rfl
  · rfl

theorem refreshes : Refreshes Steady where
  furnish := of_furnish
  log _ _ := of_tables rfl rfl rfl rfl rfl fun _ => rfl
  tell _ _ := of_tables rfl rfl rfl rfl rfl fun _ => rfl
  clear := of_clearing

/-- The cell gets what the host has for it. -/
theorem updateRef {r : RefId} {m : Found} (idle : (s.ref r).loaded = false)
    (found : Hosted s → ∀ v, m = some v → v.index < s.values.size ∧ Foreign (s.form v).kind) :
    Steady s (after (Session.updateRef r fun ref => { ref with module := m, loaded := true }) s) where
  modules := rfl
  names := rfl
  cells := Array.size_modify
  size := Nat.le_refl _
  kind _ _ := rfl
  hosted := id
  ref hosted q := by
    rw [ref_updateRef]
    split
    · next same =>
      rw [same.1]
      exact .inr ⟨idle, rfl, found hosted⟩
    · exact .inl rfl
  outside := rfl

theorem of_touch {L : Licence} {R : Realm} (touch : Touch L R s t) : Steady s t := by
  cases touch with
  | steps h fine => exact of_remote (.of_changes fine)
  | lookup h => exact of_remote (h.through .refl .trans .of_change .of_reserves)
  | wrap u body v w => exact of_remote (.setValue rfl rfl)
  | renew e => exact of_remote (Apart.of_clears (.enqueueEntry e) |>.remote s)
  | settle r idle => exact updateRef idle fun _ => nofun
  | load r name object m cell idle made =>
    have loaded : Steady s
        (after (Session.updateRef r fun ref => { ref with module := m, loaded := true }) s) := by
      refine updateRef idle fun hosted v hv => hosted object v ?_
      rw [made, hv]
    exact loaded.trans (of_all (fun _ _ => of_furnish) (furnish_loadCell r name m s))

theorem covers : Operation.Covers Steady := .of_remote of_remote of_touch

theorem of_within {α : Type} {m : Analysis α} {Q : α → Prop} (h : Within .all Steady m Q) (s : Session) :
    Steady s (after m s) := h.whole refl trans s

theorem of_evaluates {o : Operation} (h : o.evaluates) (s : Session) : Steady s (after o.run s) :=
  of_within (covers.run o h fun _ _ _ _ => of_remote (.of_same rfl rfl rfl rfl)) s

theorem clearCaches (s : Session) : Steady s (after clearCaches s) where
  modules := rfl
  names := rfl
  cells := rfl
  size := Nat.le_refl _
  kind _ _ := rfl
  hosted _ := nofun
  ref _ _ := .inl rfl
  outside := rfl

end Steady

end Typeflow.Session
