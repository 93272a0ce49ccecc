import Typeflow.Proofs.Roam.Run

/-! Generations of values. What a memo table or a class holds stays, and whatever is made to be shared is
what they hold from then on. -/
namespace Typeflow.Session

/-- What a memo table holds stays in it, and whatever comes in is new. -/
structure Extends {κ : Type} [BEq κ] (size : Nat) (c d : Cache κ ValueId) : Prop where
  stays : ∀ k v, c.find? k = some (some v) → d.find? k = some (some v)
  fresh : ∀ k v, d.find? k = some (some v) → c.find? k = some (some v) ∨ size ≤ v.index

namespace Extends

variable {κ : Type} [BEq κ] {size : Nat} {c d e : Cache κ ValueId}

theorem refl (size : Nat) (c : Cache κ ValueId) : Extends size c c := ⟨fun _ _ => id, fun _ _ => .inl⟩

private theorem of_iff (h : ∀ k v, d.find? k = some (some v) ↔ c.find? k = some (some v)) : Extends size c d :=
  ⟨fun k v => (h k v).2, fun k v hv => .inl ((h k v).1 hv)⟩

theorem trans {more : Nat} (h : Extends size c d) (g : Extends more d e) (le : size ≤ more) :
    Extends size c e where
  stays k v hv := g.stays k v (h.stays k v hv)
  fresh k v hv := by
    rcases g.fresh k v hv with hv | new
    · exact h.fresh k v hv
    · exact .inr (Nat.le_trans le new)

theorem put {key : κ} {new : ValueId} (free : ∀ v, c.find? key ≠ some (some v)) (hn : size ≤ new.index) :
    Extends size c (c.put key (some new)) where
  stays _ _ hv := Cache.find?_put_of_free free hv
  fresh _ _ hv := (Cache.find?_put hv).imp_right fun h => by cases h; exact hn

end Extends

/-- The session gives out the value to all who ask for what the form stands for: a memo table holds it
for its constant, host object, alternatives or method, or it is the one instance of its class. A constant
that does not equal itself is never found again. -/
def Gives (s : Session) (v : ValueId) : Form → Prop
  | .constant _ (some value) => (value == value) = true → s.constants.find? value = some (some v)
  | .constant _ none => ∃ object, s.objectValues.find? object = some (some v)
  | .builtinInstance cls => (s.value cls).kept? .instance_ = some v
  | .multiple members => s.aggregates.find? (alternativesKey members) = some (some v)
  | .boundMethod function self => s.boundMethods.find? (function, self) = some (some v)
  | form => ∀ object, form.object? = some object → s.objectValues.find? object = some (some v)

/-- What is not shared has nothing to be found under. -/
theorem gives_of_own (s : Session) (v : ValueId) {form : Form} (h : form.isShared = false) :
    s.Gives v form := by
  cases form <;> simp only [Form.isShared, Form.object?, Option.isSome_some, reduceCtorEq] at h <;>
    simp [Gives, Form.object?]

/-- A value for a host object is given out when the memo table holds it for the object. -/
theorem gives_of_object {s : Session} {v : ValueId} {form : Form} {object : ObjectId}
    (h : form.object? = some object) (found : s.objectValues.find? object = some (some v)) :
    s.Gives v form := by
  cases form <;> simp only [Form.object?, Option.some.injEq, reduceCtorEq] at h <;> subst h <;>
    simpa [Gives, Form.object?] using found

/-- The value is the one that the session gives out. -/
def IsCurrent (s : Session) (v : ValueId) : Prop := s.Gives v (s.form v)

/-- What the memo tables hold stays in them. -/
structure TablesRetain (s t : Session) : Prop where
  objects : Extends s.values.size s.objectValues t.objectValues
  constants : Extends s.values.size s.constants t.constants
  aggregates : Extends s.values.size s.aggregates t.aggregates
  bounds : Extends s.values.size s.boundMethods t.boundMethods

theorem TablesRetain.of_same {s t : Session} (same : t.memoTables = s.memoTables) : TablesRetain s t := by
  simp only [memoTables, Prod.mk.injEq] at same
  obtain ⟨objects, constants, aggregates, bounds⟩ := same
  constructor <;> simp only [objects, constants, aggregates, bounds] <;> exact .refl _ _

/-- Everything that is kept to be shared stays, and whatever is made to be shared is kept. -/
structure Retains (s t : Session) : Prop extends TablesRetain s t where
  size : s.values.size ≤ t.values.size
  instances : ∀ cls v, (s.value cls).kept? .instance_ = some v → (t.value cls).kept? .instance_ = some v
  made : ∀ v, v.index < t.values.size →
    v.index < s.values.size ∧ t.form v = s.form v ∨ t.IsCurrent v

namespace Retains

variable {s t q : Session}

theorem gives (h : Retains s t) {v : ValueId} {form : Form} (given : s.Gives v form) : t.Gives v form := by
  cases form with
  | constant type value =>
    cases value with
    | none => exact given.imp fun object hv => h.objects.stays _ _ hv
    | some value => exact fun self => h.constants.stays _ _ (given self)
  | builtinInstance cls => exact h.instances _ _ given
  | multiple members => exact h.aggregates.stays _ _ given
  | boundMethod function self => exact h.bounds.stays _ _ given
  | _ => exact fun object ho => h.objects.stays _ _ (given object ho)

/-- A value of the same form is given out as before. -/
theorem isCurrent (h : Retains s t) {v : ValueId} (form : t.form v = s.form v) (current : s.IsCurrent v) :
    t.IsCurrent v := by
  rw [IsCurrent, form]
  exact h.gives current

theorem of_same (values : t.values = s.values) (tables : t.memoTables = s.memoTables) : Retains s t where
  toTablesRetain := .of_same tables
  size := Nat.le_of_eq (congrArg Array.size values.symm)
  instances cls v hv := by rwa [Session.value, values]
  made v hv := .inl ⟨values ▸ hv, by rw [Session.form, Session.form, Session.value, Session.value, values]⟩

theorem refl (s : Session) : Retains s s := .of_same rfl rfl

theorem trans (h : Retains s t) (g : Retains t q) : Retains s q where
  size := Nat.le_trans h.size g.size
  instances cls v hv := g.instances cls v (h.instances cls v hv)
  objects := h.objects.trans g.objects h.size
  constants := h.constants.trans g.constants h.size
  aggregates := h.aggregates.trans g.aggregates h.size
  bounds := h.bounds.trans g.bounds h.size
  made v hv := by
    rcases g.made v hv with ⟨there, same⟩ | current
    · rcases h.made v there with ⟨before, first⟩ | current
      · exact .inl ⟨before, same.trans first⟩
      · exact .inr (g.isCurrent same current)
    · exact .inr current

theorem of_reserves (b : Reserves s t) : Retains s t where
  size := Nat.le_of_eq (congrArg Array.size b.values.symm)
  instances cls v hv := by rwa [Session.value, b.values]
  objects := .of_iff b.objects
  constants := .of_iff b.constants
  aggregates := .of_iff b.aggregates
  bounds := .of_iff b.bounds
  made v hv := by
    rw [b.values] at hv
    exact .inl ⟨hv, by rw [Session.form, Session.form, Session.value, Session.value, b.values]⟩

private theorem index_lt_of_kept {cls v : ValueId} {slot : Slot} (h : (s.value cls).kept? slot = some v) :
    cls.index < s.values.size :=
  Nat.lt_of_not_le fun hm => by rw [value_of_le hm] at h; cases h

/-- One more value, which is given out if it is to be shared. -/
theorem push {value : Value} (tables : TablesRetain s t) (values : t.values = s.values.push value)
    (given : t.Gives s.nextValue value.form) : Retains s t := by
  have look : ∀ v, t.value v = if v.index = s.values.size then value else s.value v := by
    intro v
    rw [Session.value, values]
    exact value_push s value v
  refine { tables with size := ?_, instances := ?_, made := ?_ }
  · simp [values]
  · intro cls v hv
    rw [look, if_neg (Nat.ne_of_lt (index_lt_of_kept hv))]
    exact hv
  · intro v hv
    rw [values, Array.size_push, Nat.lt_succ_iff] at hv
    rcases Nat.lt_or_eq_of_le hv with there | same
    · exact .inl ⟨there, by rw [form, form, look, if_neg (Nat.ne_of_lt there)]⟩
    · have new : v = s.nextValue := ValueId.index_inj.1 same
      refine .inr ?_
      rw [IsCurrent, form, look, if_pos same, new]
      exact given

/-- A value is put in the place of another one and keeps its instance. -/
theorem setValue {v : ValueId} {value : Value}
    (instance_ : ∀ w, (s.value v).kept? .instance_ = some w → value.kept? .instance_ = some w)
    (form : value.form = s.form v ∨ value.form.isShared = false) : Retains s (s.setValue v value) where
  size := by simp [Session.setValue]
  instances cls w hw := by
    rw [value_setValue]
    split
    · next same => exact instance_ w (same.1 ▸ hw)
    · exact hw
  toTablesRetain := .of_same rfl
  made w hw := by
    have there : w.index < s.values.size := by simpa [Session.setValue] using hw
    by_cases same : w = v ∧ v.index < s.values.size
    · have look : (s.setValue v value).form w = value.form := by rw [form_setValue, if_pos same]
      rcases form with form | own
      · exact .inl ⟨there, by rw [look, form, same.1]⟩
      · refine .inr ?_
        rw [IsCurrent, look]
        exact gives_of_own _ _ own
    · exact .inl ⟨there, by rw [form_setValue, if_neg same]⟩

/-- The first instance of a class, which the class keeps. -/
theorem makeInstance {cls : ValueId} (there : cls.index < s.values.size)
    (free : (s.value cls).kept? .instance_ = none) {value : Value}
    (of : value.form = .builtinInstance cls ∨ value.form.isShared = false) :
    Retains s ((s.withValue value).setValue cls ((s.value cls).keep .instance_ s.nextValue)) := by
  let t := (s.withValue value).setValue cls ((s.value cls).keep .instance_ s.nextValue)
  have wide : cls.index < (s.withValue value).values.size := by
    simpa [withValue] using Nat.lt_succ_of_lt there
  have own : t.value cls = (s.value cls).keep .instance_ s.nextValue := by
    rw [value_setValue, if_pos ⟨rfl, wide⟩]
  have old : ∀ v, v ≠ cls → v.index < s.values.size → t.value v = s.value v := by
    intro v ne hv
    rw [value_setValue, if_neg fun both => ne both.1, withValue, value_push, if_neg (Nat.ne_of_lt hv)]
  have new : t.value s.nextValue = value := by
    have ne : s.nextValue ≠ cls := by
      rintro rfl
      exact Nat.lt_irrefl _ there
    rw [value_setValue, if_neg fun both => ne both.1, withValue, value_push]
    exact if_pos rfl
  refine { toTablesRetain := .of_same rfl, size := ?_, instances := ?_, made := ?_ }
  · simp [Session.setValue, withValue]
  · intro other v hv
    by_cases same : other = cls
    · rw [same, free] at hv
      cases hv
    · rw [old other same (index_lt_of_kept hv)]
      exact hv
  · intro v hv
    have le : v.index ≤ s.values.size := by
      simpa [Session.setValue, withValue, Nat.lt_succ_iff] using hv
    rcases Nat.lt_or_eq_of_le le with before | last
    · refine .inl ⟨before, ?_⟩
      change (t.value v).form = s.form v
      by_cases same : v = cls
      · rw [same, own]
        rfl
      · rw [old v same before]
        rfl
    · obtain rfl : v = s.nextValue := ValueId.index_inj.1 last
      refine .inr ?_
      change t.Gives s.nextValue (t.value s.nextValue).form
      rw [new]
      rcases of with of | unshared
      · rw [of, Gives, own, Value.kept?_keep, if_pos rfl]
      · exact gives_of_own _ _ unshared

theorem of_change {R : Realm} (c : Change R s t) : Retains s t := by
  have last : s.values.size ≤ s.nextValue.index := Nat.le_refl _
  cases c with
  | beside b => exact .of_reserves b.toReserves
  | watch | newRecord | setRecord | noteRecord | newScope | setScope =>
    exact .of_same rfl rfl
  | make name description type form own => exact push (.of_same rfl) rfl (gives_of_own _ _ own)
  | setForm v form kind own => exact .setValue (fun _ => id) (.inr own)
  | keep v slot other own =>
    refine .setValue (fun w hw => ?_) (.inl rfl)
    rw [Value.kept?_keep, if_neg own.symm]
    exact hw
  | makeInstance cls name description type form of there free h =>
    refine .makeInstance there free (of.imp_right ?_)
    rintro rfl
    rfl
  | makeObject object name description type form of suits free =>
    have found := Cache.find?_put_self (beq_self_eq_true object) s.objectValues (some s.nextValue)
    refine push ⟨.put free last, .refl _ _, .refl _ _, .refl _ _⟩ rfl ?_
    rcases of with own | ⟨cls, rfl⟩
    · exact gives_of_object own found
    · exact ⟨object, found⟩
  | makeConstant name description cls value free =>
    refine push ⟨.refl _ _, .put free last, .refl _ _, .refl _ _⟩ rfl ?_
    exact fun self => Cache.find?_put_self self s.constants (some s.nextValue)
  | makeAggregate name description members free =>
    refine push ⟨.refl _ _, .refl _ _, .put free last, .refl _ _⟩ rfl ?_
    exact Cache.find?_put_self (beq_self_eq_true (alternativesKey members)) s.aggregates (some s.nextValue)
  | makeBound name description function self free =>
    refine push ⟨.refl _ _, .refl _ _, .refl _ _, .put free last⟩ rfl ?_
    exact Cache.find?_put_self (beq_self_eq_true (function, self)) s.boundMethods (some s.nextValue)

theorem spans : Spans Retains where
  refl := refl
  trans := trans
  change := of_change
  lookup c := c.through refl trans of_change of_reserves
  names _ _ := .of_same rfl rfl
  replace _ _ _ _ := .setValue (fun _ => id) (.inl rfl)
  wrap _ _ _ _ := by
    refine .setValue (fun _ hw => ?_) (.inl rfl)
    rw [Value.kept?_keep, if_neg (by nofun)]
    exact hw
  ref _ _ _ := .of_same rfl rfl

end Retains

/-- Values of a generation are those from a number on. The memo tables hold no others, and each value of
the generation that is to be shared is the one that is given out. -/
structure Generation (first : Nat) (s : Session) : Prop where
  size : first ≤ s.values.size
  objects : ∀ object v, s.objectValues.find? object = some (some v) → first ≤ v.index
  constants : ∀ value v, s.constants.find? value = some (some v) → first ≤ v.index
  aggregates : ∀ members v, s.aggregates.find? members = some (some v) → first ≤ v.index
  bounds : ∀ pair v, s.boundMethods.find? pair = some (some v) → first ≤ v.index
  current : ∀ v, first ≤ v.index → v.index < s.values.size → s.IsCurrent v

theorem Generation.retains {first : Nat} {s t : Session} (h : Generation first s) (g : Retains s t) :
    Generation first t where
  size := Nat.le_trans h.size g.size
  objects o v hv := (g.objects.fresh o v hv).elim (h.objects o v) (Nat.le_trans h.size)
  constants c v hv := (g.constants.fresh c v hv).elim (h.constants c v) (Nat.le_trans h.size)
  aggregates vs v hv := (g.aggregates.fresh vs v hv).elim (h.aggregates vs v) (Nat.le_trans h.size)
  bounds p v hv := (g.bounds.fresh p v hv).elim (h.bounds p v) (Nat.le_trans h.size)
  current v hv lt := by
    rcases g.made v lt with ⟨before, same⟩ | current
    · exact g.isCurrent same (h.current v hv before)
    · exact current

end Typeflow.Session
