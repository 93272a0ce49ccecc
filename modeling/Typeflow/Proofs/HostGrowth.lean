import Typeflow.Value

/-! The host of a session. It may make more types while a session runs, and what it refers to as a type or
offers as a module stays what it is. -/
namespace Typeflow

/-- A type without members, as the host makes them. -/
inductive HostObject.IsEmptyType : HostObject → Prop
  | intro (name owner : String) (id : TypeId) : IsEmptyType ⟨.type name owner id {}, .type⟩

theorem HostObject.IsEmptyType.kind {object : HostObject} (empty : object.IsEmptyType) :
    object.shape.kind = .type := by
  cases empty
  rfl

namespace Host

variable {h g k : Host} {o : ObjectId} {form : Form}

def IsType (host : Host) (o : ObjectId) : Prop := (host.object o).shape.kind = .type

def IsModule (host : Host) (o : ObjectId) : Prop := (host.object o).shape.kind = .module

/-- An object that passes for what only its shape decides has the shape. -/
theorem kind_of_classify {kind : HostKind} (passes : h.classify o = kind) (known : kind ≠ .unknown)
    (own : kind ≠ .memberContainer) : (h.object o).shape.kind = kind := by
  subst passes
  simp only [classify, HostObject.classify] at known own ⊢
  split at known
  · next serves =>
    rw [if_pos serves] at own ⊢
    generalize (h.object o).declared = kind at serves known own
    cases kind <;> first | exact absurd rfl known | exact absurd rfl own | exact of_decide_eq_true serves
  · exact absurd rfl known

/-- What the host refers to as a type is one, and what it lets import is a module. -/
structure WellTyped (host : Host) : Prop where
  types : ∀ id t, host.typeFor? id = some t → host.IsType t
  declared : ∀ o t, host.declaredType? o = some t → host.IsType t
  typeOf : ∀ o t, host.typeOf? o = some t → host.IsType t
  returns : ∀ o, ∀ t ∈ host.returnsOf o, host.IsType t
  applied : ∀ name t, host.instantiations.find? name = some t → host.IsType t
  imported : ∀ name m, host.importable.find? name = some m → host.IsModule m

/-- Types that were applied are for the host to answer for. -/
theorem WellTyped.carry (typed : h.WellTyped)
    (kind : ∀ o, (g.object o).shape.kind = (h.object o).shape.kind) (types : g.types = h.types)
    (declared : g.declaredTypes = h.declaredTypes) (typeOf : ∀ o, g.typeOf? o = h.typeOf? o)
    (returns : ∀ o, g.returnsOf o = h.returnsOf o) (importable : g.importable = h.importable)
    (applied : ∀ name t, g.instantiations.find? name = some t → g.IsType t) : g.WellTyped where
  types id t ht := (kind t).trans (typed.types id t (by rwa [typeFor?, ← types]))
  declared o t ht := (kind t).trans (typed.declared o t (by rwa [declaredType?, ← declared]))
  typeOf o t ht := (kind t).trans (typed.typeOf o t (by rwa [← typeOf]))
  returns o t ht := (kind t).trans (typed.returns o t (by rwa [← returns]))
  applied := applied
  imported name m hm := (kind m).trans (typed.imported name m (by rwa [← importable]))

/-- The form is one for the object: types are classes and modules are modules, except those that pass for
containers of members, which may be reflected. -/
structure Suits (host : Host) (o : ObjectId) (form : Form) : Prop where
  type : host.IsType o →
    form = .builtinClass o ∨ host.classify o = .memberContainer ∧ form = .reflected o
  module : host.IsModule o →
    form = .builtinModule o ∨ host.classify o = .memberContainer ∧ form = .reflected o

namespace Suits

theorem of_class (type : h.IsType o) : h.Suits o (.builtinClass o) where
  type _ := .inl rfl
  module module := by
    rw [IsModule, show (h.object o).shape.kind = .type from type] at module
    cases module

theorem of_module (module : h.IsModule o) : h.Suits o (.builtinModule o) where
  type type := by
    rw [IsType, show (h.object o).shape.kind = .module from module] at type
    cases type
  module _ := .inl rfl

theorem of_container (passes : h.classify o = .memberContainer) : h.Suits o (.reflected o) where
  type _ := .inr ⟨passes, rfl⟩
  module _ := .inr ⟨passes, rfl⟩

/-- Other objects may have any form. -/
theorem of_other (type : ¬ h.IsType o) (module : ¬ h.IsModule o) : h.Suits o form where
  type is := absurd is type
  module is := absurd is module

theorem of_classify {kind : HostKind} (passes : h.classify o = kind) (known : kind ≠ .unknown)
    (own : kind ≠ .memberContainer) (type : kind ≠ .type) (module : kind ≠ .module) : h.Suits o form := by
  have shape := kind_of_classify passes known own
  apply of_other
  · rwa [IsType, shape]
  · rwa [IsModule, shape]

end Suits

/-- The host has what it had, and may have made more types. -/
structure Grows (h g : Host) : Prop where
  size : h.objects.size ≤ g.objects.size
  object : ∀ o : ObjectId, o.index < h.objects.size → g.object o = h.object o
  made : ∀ o : ObjectId, h.objects.size ≤ o.index → (g.object o).IsEmptyType
  types : g.types = h.types
  declared : g.declaredTypes = h.declaredTypes
  importable : g.importable = h.importable
  applied : ∀ name t, h.instantiations.find? name = some t → g.instantiations.find? name = some t
  fresh : ∀ name t, g.instantiations.find? name = some t →
    h.instantiations.find? name = some t ∨ (g.object t).IsEmptyType

namespace Grows

theorem of_objects (objects : g.objects = h.objects) (types : g.types = h.types)
    (declared : g.declaredTypes = h.declaredTypes) (importable : g.importable = h.importable)
    (instantiations : g.instantiations = h.instantiations) : h.Grows g where
  size := Nat.le_of_eq (by rw [objects])
  object o _ := by rw [Host.object, Host.object, objects]
  made o ho := by
    rw [← objects] at ho
    rw [Host.object, Array.getD_eq_getD_getElem?, Array.getElem?_eq_none ho]
    exact .intro _ _ _
  types := types
  declared := declared
  importable := importable
  applied name t ht := by rwa [instantiations]
  fresh name t ht := .inl (by rwa [← instantiations])

theorem of_eq (same : g = h) : h.Grows g := by
  subst same
  exact of_objects rfl rfl rfl rfl rfl

/-- An object is what it was, or a type that is made or not there before and after. -/
theorem object_cases (grows : h.Grows g) (o : ObjectId) :
    g.object o = h.object o ∨ (g.object o).IsEmptyType ∧ (h.object o).IsEmptyType := by
  by_cases there : o.index < h.objects.size
  · exact .inl (grows.object o there)
  · have outside := Nat.le_of_not_lt there
    exact .inr ⟨grows.made o outside, (of_eq rfl).made o outside⟩

theorem trans (first : h.Grows g) (next : g.Grows k) : h.Grows k where
  size := Nat.le_trans first.size next.size
  object o ho := (next.object o (Nat.lt_of_lt_of_le ho first.size)).trans (first.object o ho)
  made o ho := by
    by_cases there : o.index < g.objects.size
    · rw [next.object o there]
      exact first.made o ho
    · exact next.made o (Nat.le_of_not_lt there)
  types := next.types.trans first.types
  declared := next.declared.trans first.declared
  importable := next.importable.trans first.importable
  applied name t ht := next.applied name t (first.applied name t ht)
  fresh name t ht := by
    rcases next.fresh name t ht with before | empty
    · refine (first.fresh name t before).imp_right fun empty => ?_
      rcases next.object_cases t with same | ⟨made, -⟩
      · rwa [same]
      · exact made
    · exact .inr empty

theorem importModule (h : Host) (name : String) : h.Grows (h.importModule name).2 :=
  of_objects rfl rfl rfl rfl rfl

theorem instantiate (h : Host) (type : ObjectId) (arguments : List ObjectId) :
    h.Grows (h.instantiate type arguments).2 := by
  simp only [Host.instantiate]
  split
  · exact of_eq rfl
  · split
    · exact of_eq rfl
    · next missing =>
      have made : ∀ o : ObjectId, h.objects.size ≤ o.index →
          HostObject.IsEmptyType (Host.object { h with
            objects := h.objects.push
              ⟨.type (h.instantiationName type arguments) (h.moduleOf type) .unknown {}, .type⟩ } o) := by
        intro o ho
        simp only [Host.object, Array.getD_eq_getD_getElem?, Array.getElem?_push]
        split
        · exact .intro _ _ _
        · rw [Array.getElem?_eq_none ho]
          exact .intro _ _ _
      refine ⟨by simp, fun o ho => ?_, made, rfl, rfl, rfl, fun name t ht => ?_, fun name t ht => ?_⟩
      · simp only [Host.object, Array.getD_eq_getD_getElem?]
        rw [Array.getElem?_push_lt ho, Array.getElem?_eq_getElem ho]
      · rw [NameMap.find?_insert, if_neg]
        · exact ht
        · rintro rfl
          rw [missing] at ht
          cases ht
      · rw [NameMap.find?_insert] at ht
        split at ht
        · cases ht
          exact .inr (made _ (Nat.le_refl _))
        · exact .inl ht

/-- What empty types have in common is not changed. -/
theorem congr {α : Type} {f : HostObject → α} (grows : h.Grows g)
    (empty : ∀ x y : HostObject, x.IsEmptyType → y.IsEmptyType → f x = f y) (o : ObjectId) :
    f (g.object o) = f (h.object o) := by
  rcases grows.object_cases o with same | ⟨made, before⟩
  · rw [same]
  · exact empty _ _ made before

theorem kind (grows : h.Grows g) (o : ObjectId) : (g.object o).shape.kind = (h.object o).shape.kind :=
  grows.congr (f := fun x => x.shape.kind) (by rintro _ _ ⟨⟩ ⟨⟩; rfl) o

theorem isType (grows : h.Grows g) (o : ObjectId) : g.IsType o ↔ h.IsType o := by
  rw [IsType, IsType, grows.kind]

theorem isModule (grows : h.Grows g) (o : ObjectId) : g.IsModule o ↔ h.IsModule o := by
  rw [IsModule, IsModule, grows.kind]

theorem classify (grows : h.Grows g) (o : ObjectId) : g.classify o = h.classify o :=
  grows.congr (f := HostObject.classify) (by rintro _ _ ⟨⟩ ⟨⟩; rfl) o

theorem typeOf? (grows : h.Grows g) (o : ObjectId) : g.typeOf? o = h.typeOf? o :=
  grows.congr (f := fun x => Host.typeOf? { objects := #[x] } ⟨0⟩) (by rintro _ _ ⟨⟩ ⟨⟩; rfl) o

theorem returnsOf (grows : h.Grows g) (o : ObjectId) : g.returnsOf o = h.returnsOf o :=
  grows.congr (f := fun x => Host.returnsOf { objects := #[x] } ⟨0⟩) (by rintro _ _ ⟨⟩ ⟨⟩; rfl) o

theorem suits (grows : h.Grows g) : g.Suits o form ↔ h.Suits o form where
  mp suits := ⟨fun is => grows.classify o ▸ suits.type ((grows.isType o).2 is),
    fun is => grows.classify o ▸ suits.module ((grows.isModule o).2 is)⟩
  mpr suits := ⟨fun is => (grows.classify o).symm ▸ suits.type ((grows.isType o).1 is),
    fun is => (grows.classify o).symm ▸ suits.module ((grows.isModule o).1 is)⟩

theorem wellTyped (grows : h.Grows g) : g.WellTyped ↔ h.WellTyped where
  mp typed := typed.carry (fun o => (grows.kind o).symm) grows.types.symm grows.declared.symm
    (fun o => (grows.typeOf? o).symm) (fun o => (grows.returnsOf o).symm) grows.importable.symm
    fun name t ht => (grows.isType t).1 (typed.applied name t (grows.applied name t ht))
  mpr typed := typed.carry grows.kind grows.types grows.declared grows.typeOf? grows.returnsOf grows.importable
    fun name t ht => by
      rcases grows.fresh name t ht with before | empty
      · exact (grows.isType t).2 (typed.applied name t before)
      · exact empty.kind

end Grows

/-- The host has the type that it yields. -/
theorem applied_instantiate {type made : ObjectId} {arguments : List ObjectId}
    (yields : (h.instantiate type arguments).1 = some made) :
    (h.instantiate type arguments).2.instantiations.find? (h.instantiationName type arguments) = some made := by
  simp only [instantiate] at yields ⊢
  split at yields
  · cases yields
  · next suitable =>
    rw [if_neg suitable]
    split at yields
    · next found => exact found.trans yields
    · cases yields
      exact (NameMap.find?_insert _ _ _ _).trans (if_pos rfl)

end Host

end Typeflow
