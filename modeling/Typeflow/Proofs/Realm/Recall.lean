import Typeflow.Proofs.Realm.Fine

/-! Lookups in the memo tables of a session. A lookup takes a place for its key while it makes the value,
and leaves no place without one. -/
namespace Typeflow.Session

variable {L : Licence} {R : Realm} {s t q : Session}

/-- Every place that is without a value was so before. -/
structure Finishes (s t : Session) : Prop where
  objects : ∀ o, t.objectValues.find? o = some none → s.objectValues.find? o = some none
  constants : ∀ c, t.constants.find? c = some none → s.constants.find? c = some none
  aggregates : ∀ vs, t.aggregates.find? vs = some none → s.aggregates.find? vs = some none
  bounds : ∀ p, t.boundMethods.find? p = some none → s.boundMethods.find? p = some none

namespace Finishes

theorem of_same (tables : t.memoTables = s.memoTables) : Finishes s t := by
  simp only [memoTables, Prod.mk.injEq] at tables
  obtain ⟨objects, constants, aggregates, bounds⟩ := tables
  constructor <;> simp only [objects, constants, aggregates, bounds] <;> exact fun _ => id

theorem refl (s : Session) : Finishes s s := .of_same rfl

theorem trans (h : Finishes s t) (g : Finishes t q) : Finishes s q where
  objects o ho := h.objects o (g.objects o ho)
  constants c hc := h.constants c (g.constants c hc)
  aggregates vs hvs := h.aggregates vs (g.aggregates vs hvs)
  bounds p hp := h.bounds p (g.bounds p hp)

theorem of_put {κ : Type} [BEq κ] {c : Cache κ ValueId} {key asked : κ} {v : ValueId}
    (h : (c.put key (some v)).find? asked = some none) : c.find? asked = some none :=
  (Cache.find?_put h).resolve_right (by rintro ⟨⟩)

/-- A small change puts nothing but values into the memo tables. -/
theorem of_change (c : Change R s t) : Finishes s t := by
  cases c with
  | beside b => exact .of_same b.tables
  | makeObject => exact ⟨fun _ => of_put, fun _ => id, fun _ => id, fun _ => id⟩
  | makeConstant => exact ⟨fun _ => id, fun _ => of_put, fun _ => id, fun _ => id⟩
  | makeAggregate => exact ⟨fun _ => id, fun _ => id, fun _ => of_put, fun _ => id⟩
  | makeBound => exact ⟨fun _ => id, fun _ => id, fun _ => id, fun _ => of_put⟩
  | _ => exact .of_same rfl

/-- A place that was taken for a key gets its value. -/
theorem of_place {κ : Type} [BEq κ] [PartialEquivBEq κ] {c d : Cache κ ValueId} {key asked : κ} {v : ValueId}
    (inner : d.find? asked = some none → (c.reserve key).find? asked = some none)
    (h : (d.put key (some v)).find? asked = some none) : c.find? asked = some none := by
  rw [Cache.find?_put_eq] at h
  split at h
  · cases h
  · next differs =>
    have before := inner h
    rwa [Cache.find?_reserve_eq, if_neg differs, Option.or_none] at before

end Finishes

/-- A small change, or a place that is taken in a memo table. -/
inductive Growth (R : Realm) (s : Session) : Session → Prop
  | change {t : Session} (c : Change R s t) : Growth R s t
  | place {t : Session} (p : Reserves s t) : Growth R s t

instance (R : Realm) : R.Guards (Growth R) where
  closed := by
    rintro s t hs (c | p)
    · exact hs.change c
    · exact hs.reserves p

/-- What lookups in memo tables do, of which each is finished: places are taken, and they get values. -/
structure Recalled (L : Licence) (R : Realm) (s t : Session) : Prop where
  steps : Steps L s t
  growth : Relation.ReflTransGen (Growth R) s t
  places : Finishes s t

namespace Recalled

theorem refl (s : Session) : Recalled L R s s := ⟨.refl, .refl, .refl s⟩

theorem trans (h : Recalled L R s t) (g : Recalled L R t q) : Recalled L R s q :=
  ⟨h.steps.trans g.steps, h.growth.trans g.growth, h.places.trans g.places⟩

theorem of_all (h : Relation.ReflTransGen (Recalled L R) s t) : Recalled L R s t := by
  induction h with
  | refl => exact .refl s
  | tail _ step ih => exact ih.trans step

/-- Lookups consist of small changes and of places that are taken. -/
theorem through {T : Session → Session → Prop} (refl : ∀ s, T s s)
    (trans : ∀ {s t r}, T s t → T t r → T s r) (change : ∀ {s t}, Change R s t → T s t)
    (place : ∀ {s t}, Reserves s t → T s t) (h : Recalled L R s t) : T s t := by
  have growth := h.growth
  clear h
  induction growth with
  | refl => exact refl s
  | tail _ step ih =>
    refine trans ih ?_
    cases step with
    | change c => exact change c
    | place p => exact place p

/-- A value is made for a key, for which a place was taken before. -/
theorem made {taken r made : Session} (place : Reserves s taken) (books : Bookkeeping s taken)
    (inner : Recalled L R taken r) (steps : Steps L r made) (books' : Bookkeeping made t)
    (make : Change R r t) (places : Finishes s t) : Recalled L R s t where
  steps := ((Relation.ReflTransGen.single (.bookkeep books)).trans inner.steps).trans
    (steps.tail (.bookkeep books'))
  growth := ((Relation.ReflTransGen.single (.place place)).trans inner.growth).tail (.change make)
  places := places

end Recalled

instance (L : Licence) (R : Realm) : R.Guards (Recalled L R) where
  closed hs step := Realm.Guards.closed_all hs step.growth

/-- The action consists of lookups in memo tables, and yields what is right. -/
abbrev Recalls (L : Licence) (R : Realm) {α : Type} (m : Analysis α) (Q : α → Prop) : Prop :=
  Within R (Recalled L R) m Q

end Typeflow.Session
