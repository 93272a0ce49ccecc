import Typeflow.Proofs.Realm.Touch

/-! Making the values of a session stays within a realm. A shared value and the entry of its memo table
come into being together. -/
namespace Typeflow.Session

/-- The action stays within a realm by what an evaluation does, and yields what is right. -/
abbrev Roams (L : Licence) (R : Realm) {α : Type} (m : Analysis α) (Q : α → Prop) : Prop :=
  Within R (Touch L R) m Q

namespace Roams

open Within

variable {L : Licence} {R : Realm} {α : Type}

/-- A step of the program that consists of small changes. -/
theorem of_step {m : Analysis α} {Q : α → Prop} (step : ∀ s, Step L s (after m s)) (fine : Fine R m Q) :
    Roams L R m Q :=
  fun s hs => ⟨.single (.steps (.single (step s)) (fine s hs).1), (fine s hs).2⟩

theorem of_beside {m : Analysis α} (b : ∀ s, Bookkeeping s (after m s)) (h : ∀ s, Beside s (after m s)) :
    Roams L R m fun _ => True :=
  of_step (fun s => .bookkeep (b s)) (.of_beside h)

theorem count (name : String) (delta : Nat) : Roams L R (Session.count name delta) fun _ => True :=
  of_beside (fun _ => by constructor <;> rfl) fun _ => .of_same rfl rfl rfl rfl rfl

theorem writeLog (category : LogCategory) (message : String) :
    Roams L R (Session.writeLog category message) fun _ => True :=
  of_beside (fun _ => by constructor <;> rfl) fun _ => .of_same rfl rfl rfl rfl rfl

theorem newVariable (cap : Nat) : Roams L R (Session.newVariable cap) R.record :=
  of_step (fun _ => .newVariable cap) (.newVariable cap)

theorem nameIn (scope : ScopeId) (name : String) : Roams L R (Session.nameIn scope name) R.record :=
  of_step (fun _ => .nameIn scope name) (.nameIn scope name)

theorem addTypes {x : VarId} {values : ValueSet} (h : R.set values) :
    Roams L R (Session.addTypes x values) fun _ => True :=
  of_step (fun _ => .addTypes x values) (.addTypes h)

theorem addReader (x : VarId) (reader : UnitId) :
    Roams L R (Session.addReader x reader) fun _ => True :=
  of_step (fun _ => .addReader x reader) (.addReader x reader)

theorem addReference (x : VarId) (place : Location) :
    Roams L R (Session.addReference x place) fun _ => True :=
  of_step (fun _ => .addReference x place) (.addReference x place)

theorem bindAt (x : VarId) (place : Location) {values : ValueSet} (h : R.set values) :
    Roams L R (Session.bindAt x place values) fun _ => True :=
  .bind (of_step (fun _ => .addAssignment x place) (.addAssignment x place)) fun _ _ =>
    .bind (addTypes h) fun _ _ => .pure trivial

/-- A value that is not shared and owns no scope may be made at any time. -/
theorem newValue (name description : String) (type : MemberType) {form : Form}
    (free : form.scope? = none) (own : form.isShared = false) (h : R.form form)
    (bare : form.kind ≠ .userInstance) :
    Roams L R (Session.newValue name description type form) R.value :=
  of_step (fun _ => .makeValue _ free rfl) (.newValue name description type own h bare)

theorem keptOr {v : ValueId} (hv : R.value v) {slot : Slot} (own : slot ≠ .instance_)
    (unwrapped : slot ≠ .wrapper) (plain : slot ≠ .rest) {make : Analysis ValueId} (h : Roams L R make R.value) :
    Roams L R (Session.keptOr v slot make) R.value := by
  refine .read fun s hs => ?_
  cases hk : (s.value v).kept? slot with
  | some made => exact .pure (hs.kept v hv slot made hk)
  | none =>
    refine .bind h fun made hm => .bind (Q := fun _ => True) ?_ fun _ _ => .pure hm
    exact of_change fun t _ => .steps (.single (.amendValue v _ rfl fun _ kept => .inl (kept?_keep_ne plain.symm kept)))
      (.single (.keep v slot made own unwrapped hm))

/-- The instance of a class is made together with the slot that keeps it. -/
theorem keptInstance {cls : ValueId} {s : Session} (hs : R.Closed s) (hc : R.value cls)
    (there : cls.index < s.values.size) (name description : String) {form : Form}
    (of : form = .builtinInstance cls ∨ form = .userInstance cls {}) :
    ∃ v t, Session.keptOr cls .instance_ (Session.newValue name description .instance_ form) s = .ok v t ∧
      R.value v ∧ Touches L R s t := by
  cases hk : (s.value cls).kept? .instance_ with
  | some made =>
    refine ⟨made, s, ?_, hs.kept cls hc _ made hk, .refl⟩
    simp only [Session.keptOr, read_run, hk]
    rfl
  | none =>
    let value : Value := ⟨name, description, .instance_, form, {}, []⟩
    let made := s.withValue value
    have same : made.value cls = s.value cls :=
      (value_push s value cls).trans (if_neg (Nat.ne_of_lt there))
    have run : Session.keptOr cls .instance_ (Session.newValue name description .instance_ form) s =
        .ok s.nextValue (made.setValue cls ((made.value cls).keep .instance_ s.nextValue)) := by
      simp only [Session.keptOr, read_run, hk]
      rfl
    have parts : R.form form ∧ form.scope? = none := by
      rcases of with rfl | rfl
      · exact ⟨hc, rfl⟩
      · exact ⟨⟨hc, nofun⟩, rfl⟩
    rw [same] at run
    refine ⟨_, _, run, hs.newValue _ (Nat.le_refl _), .single (.steps ?_ (.single ?_))⟩
    · refine .tail (.single (.makeValue value parts.2 rfl)) (.amendValue cls _ (congrArg Value.form same).symm ?_)
      intro w kept
      have before : (made.value cls).kept? .rest = some w := by
        rw [same]
        exact kept?_keep_ne (by rintro ⟨⟩) kept
      exact .inl before
    · exact .makeInstance cls name description .instance_ form of there hk parts.1

private theorem of_keptInstance {cls : ValueId} {s : Session} (hs : R.Closed s) (hc : R.value cls)
    (there : cls.index < s.values.size) (name description : String) {form : Form}
    (of : form = .builtinInstance cls ∨ form = .userInstance cls {}) :
    let m := (Session.keptOr cls .instance_ (Session.newValue name description .instance_ form)) >>=
      fun v => (Pure.pure (some v) : Analysis Found)
    Touches L R s (after m s) ∧ ∀ a t, m s = .ok a t → R.found a := by
  obtain ⟨v, t, run, hv, touches⟩ := keptInstance (L := L) hs hc there name description of
  intro m
  have made : m s = .ok (some v) t := bind_of_ok run
  rw [after_of_ok made]
  refine ⟨touches, fun a q h => ?_⟩
  rw [made] at h
  cases h
  exact Realm.found_some hv

theorem builtinInstance {cls : ValueId} (hc : R.value cls) :
    Roams L R (Session.builtinInstance cls) R.found := by
  intro s hs
  cases hf : s.form cls with
  | builtinClass type =>
    have run : Session.builtinInstance cls s =
        (Session.keptOr cls .instance_ (Session.newValue (s.value cls).name (s.value cls).name .instance_
          (.builtinInstance cls)) >>= fun v => (Pure.pure (some v) : Analysis Found)) s := by
      simp only [Session.builtinInstance, read_run, show (s.value cls).form = _ from hf]
    have there : cls.index < s.values.size := index_lt_of_form (by rw [hf]; nofun)
    rw [after, run, ← after]
    exact of_keptInstance hs hc there _ _ (.inl rfl)
  | _ =>
    have run : Session.builtinInstance cls s = .ok none s := by
      simp only [Session.builtinInstance, read_run, show (s.value cls).form = _ from hf]
      rfl
    rw [after_of_ok run, run]
    exact ⟨.refl, fun a t h => by cases h; exact Realm.found_none⟩

theorem userInstance {cls : ValueId} (hc : R.value cls) :
    Roams L R (Session.userInstance cls) R.found := by
  intro s hs
  cases hf : s.form cls with
  | userClass c =>
    have run : Session.userInstance cls s =
        (Session.keptOr cls .instance_ (Session.newValue (s.value cls).name
          ((s.value cls).name ++ " instance") .instance_ (.userInstance cls {})) >>=
            fun v => (Pure.pure (some v) : Analysis Found)) s := by
      simp only [Session.userInstance, read_run, show (s.value cls).form = _ from hf]
    have there : cls.index < s.values.size := index_lt_of_form (by rw [hf]; nofun)
    rw [after, run, ← after]
    exact of_keptInstance hs hc there _ _ (.inr rfl)
  | _ =>
    have run : Session.userInstance cls s = .ok none s := by
      simp only [Session.userInstance, read_run, show (s.value cls).form = _ from hf]
      rfl
    rw [after_of_ok run, run]
    exact ⟨.refl, fun a t h => by cases h; exact Realm.found_none⟩

theorem instancesOf {v : ValueId} (hv : R.value v) : Roams L R (Session.instancesOf v) R.set := by
  refine .read fun s _ => ?_
  split
  · exact .bind (builtinInstance hv) fun _ hf => .pure (Realm.set_single hf)
  · exact .bind (userInstance hv) fun _ hf => .pure (Realm.set_single hf)
  · exact .pure Realm.set_empty

end Roams

namespace Recalls

open Within

variable {L : Licence} {R : Realm} {α : Type}

/-- A lookup in a memo table. What makes the entry may rely on the place taken for the key, and makes the
value and the entry together. -/
theorem memoized {κ : Type} [BEq κ] {field : CacheField Session κ ValueId} {key : κ} {make : Analysis Found}
    {s : Session} (kept : ∀ v, (field.read s).find? key = some (some v) → R.value v)
    (made : (field.read s).find? key = none →
      ∃ v t, make (field.write ((field.read s).reserve key) s) = .ok (some v) t ∧ R.value v ∧
        Recalled L R s (field.write ((field.read t).put key (some v)) t)) :
    Proceeds (Recalled L R) (field.recall key make) R.found s := by
  rw [Proceeds]
  cases hk : (field.read s).find? key with
  | some found =>
    have run := CacheField.recall_of_find? hk make
    rw [after_of_ok run, run]
    refine ⟨.refl, fun a t h => ?_⟩
    cases h
    intro v hv
    exact kept v (by rw [hk, hv])
  | none =>
    obtain ⟨v, t, run, hv, recalled⟩ := made hk
    have ends := CacheField.recall_of_make hk run
    rw [after_of_ok ends, ends]
    exact ⟨.single recalled, fun a r h => by cases h; exact Realm.found_some hv⟩

/-- In a session the action makes a value for an object: it goes as far as `r`, where the place of the object
is still without a value, and makes it there. -/
inductive MakesAt (L : Licence) (R : Realm) (object : ObjectId) (make : Analysis ValueId) (s : Session) : Prop
  | intro (r : Session) (name description : String) (type : MemberType) (form : Form)
      (run : make s = Session.newValue name description type form r) (recalled : Recalled L R s r)
      (free : r.objectValues.find? object = some none)
      (of : form.object? = some object ∨ ∃ cls, form = .constant cls none)
      (suits : r.WellTyped → r.host.Suits object form) (parts : R.form form)

/-- Once the place of the object is taken, the action makes a value for the object. -/
def MakesObject (L : Licence) (R : Realm) (object : ObjectId) (make : Analysis ValueId) (s : Session) : Prop :=
  ∀ q, Reserves s q → R.Closed q → q.objectValues.find? object = some none → MakesAt L R object make q

/-- Makes a value from what is read. -/
theorem makesObject_read {object : ObjectId} {name description : Session → String} {type : MemberType}
    {form : Form} {s : Session} (of : form.object? = some object)
    (suits : s.WellTyped → s.host.Suits object form) (h : R.form form) :
    MakesObject L R object
      (get >>= fun s => Session.newValue (name s) (description s) type form) s :=
  fun q place _ free => ⟨q, _, _, _, _, rfl, .refl q, free, .inl of, place.endures.suits suits, h⟩

private theorem scope?_of_object {object : ObjectId} {form : Form}
    (of : form.object? = some object ∨ ∃ cls, form = .constant cls none) : form.scope? = none := by
  rcases of with of | ⟨cls, rfl⟩
  · cases form <;> first | rfl | cases of
  · rfl

theorem objectValue {object : ObjectId} {make : Analysis ValueId} {s : Session} (hs : R.Closed s)
    (h : MakesObject L R object make s) :
    Proceeds (Recalled L R) (Session.objectValue object make) R.found s := by
  refine memoized (hs.objects object) fun free => ?_
  let counted := after (Session.count "cache_misses" 1) (objectField.write (s.objectValues.reserve object) s)
  have place : Reserves s counted := ⟨rfl, Nat.le_refl _, fun _ _ => rfl, fun _ _ => Cache.find?_reserve,
    fun _ _ => .rfl, fun _ _ => .rfl, fun _ _ => .rfl, .of_eq rfl,
    fun _ => .refl _, .of_same rfl⟩
  have books : Bookkeeping s counted := by constructor <;> rfl
  have closed : R.Closed counted := hs.reserves place
  have reserved : counted.objectValues.find? object = some none :=
    Cache.find?_reserve_self (by simp) free
  obtain ⟨r, name, description, type, form, run, inner, still, of, suits, parts⟩ :=
    h counted place closed reserved
  let value : Value := ⟨name, description, type, form, {}, []⟩
  have made : make counted = .ok r.nextValue (r.withValue value) := run
  refine ⟨r.nextValue, r.withValue value, bind_of_ok made,
    (Realm.Guards.closed closed inner).newValue _ (Nat.le_refl _), ?_⟩
  refine .made place books inner (.single (.makeValue value (scope?_of_object of) rfl))
    (by constructor <;> rfl) (.makeObject object name description type form of suits (fun v hv => ?_) parts)
    ⟨fun o => Finishes.of_place (inner.places.objects o), inner.places.constants, inner.places.aggregates,
      inner.places.bounds⟩
  rw [still] at hv
  cases hv

theorem classOf {type : ObjectId} {s : Session} (hs : R.Closed s) (known : s.KnowsType type) :
    Proceeds (Recalled L R) (Session.classOf type) R.found s :=
  objectValue hs (makesObject_read rfl (fun typed => .of_class (known typed)) trivial)

theorem classOf? {type : Option ObjectId} {s : Session} (hs : R.Closed s)
    (known : ∀ t, type = some t → s.KnowsType t) :
    Proceeds (Recalled L R) (Session.classOf? type) R.found s := by
  cases type with
  | none => exact .pure Realm.found_none
  | some type => exact classOf hs (known type rfl)

/-- Finding a class never fails, and leaves the places that are taken and the other memo tables alone. -/
theorem classOf?_run (type : Option ObjectId) (s : Session) :
    ∃ found r, Session.classOf? type s = .ok found r ∧ r.constants = s.constants ∧
      ∀ object, s.objectValues.find? object = some none → r.objectValues.find? object = some none := by
  cases type with
  | none => exact ⟨none, s, rfl, rfl, fun _ h => h⟩
  | some type =>
    cases hk : s.objectValues.find? type with
    | some found =>
      have run : Session.classOf? (some type) s = .ok found s := by
        simp only [Session.classOf?, Session.classOf, Session.objectValue]
        exact CacheField.recall_of_find? hk _
      exact ⟨found, s, run, rfl, fun _ h => h⟩
    | none =>
      let counted := after (Session.count "cache_misses" 1)
        (objectField.write (s.objectValues.reserve type) s)
      let name := s.host.nameOf type
      let made := counted.withValue ⟨name, "type " ++ name, .class_, .builtinClass type, {}, []⟩
      have run : Session.classOf? (some type) s = .ok (some s.nextValue)
          (objectField.write (made.objectValues.put type (some s.nextValue)) made) := by
        simp only [Session.classOf?, Session.classOf, Session.objectValue, CacheField.recall, show (objectField.read s).find? type = none from hk]
        rfl
      refine ⟨_, _, run, rfl, fun object ho => ?_⟩
      have other : object ≠ type := by
        rintro rfl
        rw [hk] at ho
        cases ho
      exact (Cache.find?_put_ne other _ _).trans (Cache.find?_reserve_of_some ho)

private theorem classNameOr_run (cls : Found) (word : String) (s : Session) :
    ∃ name, Session.classNameOr cls word s = .ok name s := by
  cases cls with
  | none => exact ⟨word, rfl⟩
  | some cls => exact ⟨(s.value cls).name, rfl⟩

/-- The making of a constant ends, after its type is found. -/
theorem newConstant_run (value : Constant) (type : Option ObjectId) (s : Session) :
    ∃ cls r name, Session.classOf? type s = .ok cls r ∧ r.constants = s.constants ∧
      (Session.classOf? type >>= fun type => Session.classNameOr type "constant" >>= fun name =>
        Session.newValue name value.describe .constant (.constant type (some value)) >>= fun v =>
          (Pure.pure (some v) : Analysis Found)) s =
        .ok (some r.nextValue)
          (r.withValue ⟨name, value.describe, .constant, .constant cls (some value), {}, []⟩) := by
  obtain ⟨cls, r, found, same, -⟩ := classOf?_run type s
  obtain ⟨name, named⟩ := classNameOr_run cls "constant" r
  refine ⟨cls, r, name, found, same, ?_⟩
  rw [bind_of_ok found, bind_of_ok named]
  rfl

theorem constantValue (value : Constant) : Recalls L R (Session.constantValue value) R.found := by
  refine fun s hs => memoized (hs.constants value) fun free => ?_
  let counted := after (Session.count "cache_misses" 1) (constantField.write (s.constants.reserve value) s)
  have place : Reserves s counted := ⟨rfl, Nat.le_refl _, fun _ _ => rfl, fun _ _ => .rfl,
    fun _ _ => Cache.find?_reserve, fun _ _ => .rfl, fun _ _ => .rfl, .of_eq rfl,
    fun _ => .refl _, .of_same rfl⟩
  have books : Bookkeeping s counted := by constructor <;> rfl
  have closed : R.Closed counted := hs.reserves place
  let type := counted.host.typeFor? (value.typeId counted.isV3)
  obtain ⟨cls, r, name, found, same, run⟩ := newConstant_run value type counted
  obtain ⟨lookups, right⟩ := classOf? (L := L) closed fun _ known => .of_id known
  rw [after_of_ok found] at lookups
  have inner := Recalled.of_all lookups
  have unmade : ∀ v, r.constants.find? value ≠ some (some v) := by
    rw [same]
    exact Cache.find?_reserve_ne free
  let constant : Value := ⟨name, value.describe, .constant, .constant cls (some value), {}, []⟩
  exact ⟨r.nextValue, r.withValue constant, run, (Realm.Guards.closed closed inner).newValue _ (Nat.le_refl _),
    .made place books inner (.single (.makeValue constant rfl rfl)) (by constructor <;> rfl)
      (.makeConstant name value.describe cls value unmade (right cls r found))
      ⟨inner.places.objects, fun c => Finishes.of_place (inner.places.constants c), inner.places.aggregates,
        inner.places.bounds⟩⟩

theorem aggregate {members : List Found} (h : ∀ v ∈ members, R.found v) :
    Recalls L R (Session.aggregate members) R.found := by
  have each : ∀ v ∈ (ValueList.ofList (members.filterMap fun v => v)).toList, R.value v :=
    Realm.set_ofList h
  unfold Session.aggregate
  split
  · exact .pure Realm.found_none
  · next only eq => exact .pure (Realm.found_some (each only (by rw [eq]; exact List.mem_singleton_self _)))
  · next first rest _ eq =>
    rw [eq] at each
    refine fun s hs => memoized (hs.aggregates (alternativesKey (first :: rest))) fun free => ?_
    let taken := aggregateField.write (s.aggregates.reserve (alternativesKey (first :: rest))) s
    have place : Reserves s taken := ⟨rfl, Nat.le_refl _, fun _ _ => rfl, fun _ _ => .rfl,
      fun _ _ => .rfl, fun _ _ => Cache.find?_reserve, fun _ _ => .rfl, .of_eq rfl,
      fun _ => .refl _, .of_same rfl⟩
    refine ⟨_, _, rfl, hs.newValue _ (Nat.le_refl _), .made place (by constructor <;> rfl) (.refl taken)
      (.single (.makeValue _ ?_ rfl)) (by constructor <;> rfl)
      (.makeAggregate _ _ (first :: rest) (Cache.find?_reserve_ne free) each)
      ⟨fun _ => id, fun _ => id, fun _ => Finishes.of_place id, fun _ => id⟩⟩
    rfl

theorem boundMethod {function self : ValueId} (hf : R.value function) (hs : R.value self) :
    Recalls L R (Session.boundMethod function self) R.found := by
  refine fun s hc => memoized (hc.bounds (function, self)) fun free => ?_
  let taken := boundField.write (s.boundMethods.reserve (function, self)) s
  have place : Reserves s taken := ⟨rfl, Nat.le_refl _, fun _ _ => rfl, fun _ _ => .rfl,
    fun _ _ => .rfl, fun _ _ => .rfl, fun _ _ => Cache.find?_reserve, .of_eq rfl,
    fun _ => .refl _, .of_same rfl⟩
  refine ⟨_, _, rfl, hc.newValue _ (Nat.le_refl _), .made place (by constructor <;> rfl) (.refl taken)
    (.single (.makeValue _ ?_ rfl)) (by constructor <;> rfl)
    (.makeBound _ _ function self (Cache.find?_reserve_ne free) hf hs)
    ⟨fun _ => id, fun _ => id, fun _ => id, fun _ => Finishes.of_place id⟩⟩
  rfl

theorem moduleOfObject {object : ObjectId} {s : Session} (hs : R.Closed s) (known : s.KnowsModule object) :
    Proceeds (Recalled L R) (Session.moduleOfObject object) R.found s :=
  objectValue hs (makesObject_read rfl (fun typed => .of_module (known typed)) trivial)

end Recalls

namespace Roams

open Within

variable {L : Licence} {R : Realm} {α : Type}

theorem of_lookups {m : Analysis α} {Q : α → Prop} {s : Session} (h : Proceeds (Recalled L R) m Q s) :
    Proceeds (Touch L R) m Q s :=
  ⟨Relation.ReflTransGen.mono (fun _ _ => .lookup) _ _ h.1, h.2⟩

private theorem of_recalls {m : Analysis α} {Q : α → Prop} (h : Recalls L R m Q) : Roams L R m Q :=
  fun s hs => of_lookups (h s hs)

theorem classOf? {type : Option ObjectId} {s : Session} (hs : R.Closed s)
    (known : ∀ t, type = some t → s.KnowsType t) :
    Proceeds (Touch L R) (Session.classOf? type) R.found s := of_lookups (Recalls.classOf? hs known)

theorem constantValue (value : Constant) : Roams L R (Session.constantValue value) R.found :=
  of_recalls (.constantValue value)

theorem aggregate {members : List Found} (h : ∀ v ∈ members, R.found v) :
    Roams L R (Session.aggregate members) R.found := of_recalls (.aggregate h)

theorem boundMethod {function self : ValueId} (hf : R.value function) (hs : R.value self) :
    Roams L R (Session.boundMethod function self) R.found := of_recalls (.boundMethod hf hs)

theorem instancesOfType {type : Option ObjectId} {s : Session} (hs : R.Closed s)
    (known : ∀ t, type = some t → s.KnowsType t) :
    Proceeds (Touch L R) (Session.instancesOfType type) R.set s := by
  refine .bind hs (classOf? hs known) fun found t _ ht hf => ?_
  cases found with
  | none => exact .pure Realm.set_empty
  | some cls => exact instancesOf (hf cls rfl) t ht

theorem knownType (id : TypeId) : Roams L R (Session.knownType id) R.found :=
  fun _ hs => classOf? hs fun _ known => .of_id known

theorem knownInstance (id : TypeId) : Roams L R (Session.knownInstance id) R.set := by
  refine .bind (knownType id) fun found hf => ?_
  cases found with
  | none => exact .pure Realm.set_empty
  | some cls => exact instancesOf (hf cls rfl)

theorem classNameOr (cls : Found) (word : String) :
    Roams L R (Session.classNameOr cls word) fun _ => True := by
  cases cls with
  | none => exact .pure trivial
  | some cls => exact .read fun _ _ => .pure trivial

theorem constantSet (value : Constant) : Roams L R (Session.constantSet value) R.set :=
  .bind (constantValue value) fun _ hf => .pure (Realm.set_single hf)

theorem moduleOfObject {object : ObjectId} {s : Session} (hs : R.Closed s) (known : s.KnowsModule object) :
    Proceeds (Touch L R) (Session.moduleOfObject object) R.found s :=
  of_lookups (Recalls.moduleOfObject hs known)

theorem unclassifiedValue (object : ObjectId) : Roams L R (Session.unclassifiedValue object) R.found := by
  refine fun s hs => Proceeds.read (.bind hs (classOf? hs fun _ known => .of_declared known)
    fun declared t _ ht hd => (?_ : Roams L R _ R.found) t ht)
  cases declared with
  | some cls => exact builtinInstance (hd cls rfl)
  | none =>
    refine .bind (count _ _) fun _ _ => .read fun s _ => .read fun t _ =>
      .ite (.bind (Q := fun _ => True) (throw _) fun _ _ => ?_) ?_
    all_goals
      refine .bind (writeLog _ _) fun _ _ => .bind (knownType _) fun found hf => ?_
      cases found with
      | some cls => exact builtinInstance (hf cls rfl)
      | none => exact .pure Realm.found_none

/-- An object that passes for the kind has a value that is made as for the kind. -/
theorem simpleValue {object : ObjectId} {kind : HostKind} {s : Session} (hs : R.Closed s)
    (passes : s.host.classify object = kind) :
    Proceeds (Touch L R) (Session.simpleValue object kind) R.found s := by
  have other : ∀ {form : Form}, kind ≠ .unknown → kind ≠ .memberContainer → kind ≠ .type → kind ≠ .module →
      s.WellTyped → s.host.Suits object form :=
    fun known own type module _ => .of_classify passes known own type module
  cases kind with
  | type => exact of_lookups (Recalls.classOf hs (.of_classify passes))
  | module => exact moduleOfObject hs (.of_classify passes)
  | function | methodDescriptor =>
    exact of_lookups (Recalls.objectValue hs (Recalls.makesObject_read rfl (other nofun nofun nofun nofun) trivial))
  | property =>
    exact of_lookups (Recalls.objectValue hs fun q place _ free =>
      ⟨q, _, _, _, _, rfl, .refl q, free, .inl rfl, place.endures.suits (other nofun nofun nofun nofun), trivial⟩)
  | memberContainer =>
    exact of_lookups (Recalls.objectValue hs fun q place _ free =>
      ⟨q, _, _, _, _, rfl, .refl q, free, .inl rfl, place.endures.suits fun _ => .of_container passes, trivial⟩)
  | constant =>
    refine of_lookups (Recalls.objectValue hs fun q place hq free => ?_)
    obtain ⟨cls, r, found, _, still⟩ := Recalls.classOf?_run (q.host.typeOf? object) q
    obtain ⟨name, named⟩ := Recalls.classNameOr_run cls "constant" r
    obtain ⟨lookups, right⟩ := Recalls.classOf? (L := L) hq fun _ known => .of_typeOf known
    rw [after_of_ok found] at lookups
    have recalled := Recalled.of_all lookups
    refine ⟨r, name, name, .constant, .constant cls none, ?_, recalled, still object free,
      .inr ⟨cls, rfl⟩, ?_, right cls r found⟩
    · rw [read_run, bind_of_ok found, bind_of_ok named]
    · exact (place.endures.trans (Endures.spans.lookup recalled)).suits (other nofun nofun nofun nofun)
  | primitive =>
    refine (?_ : Roams L R _ R.found) s hs
    refine .read fun s _ => ?_
    split
    · exact constantValue _
    · exact .pure Realm.found_none
  | multipleMembers | unknown => exact unclassifiedValue object s hs

theorem valueOfWithin (depth : Nat) (object : Option ObjectId) :
    Roams L R (Session.valueOfWithin depth object) R.found := by
  induction depth generalizing object with
  | zero =>
    cases object with
    | none => exact constantValue .none
    | some object => exact throw _
  | succ depth ih =>
    cases object with
    | none => exact constantValue .none
    | some object =>
      intro s hs
      have several : Roams L R
          ((s.host.alternatives object).mapM (Session.valueOfWithin depth) >>= Session.aggregate) R.found :=
        .bind (.mapM fun other _ => ih other) fun _ hf => aggregate hf
      refine Proceeds.read ?_
      dsimp only
      split
      · exact several s hs
      · exact simpleValue hs rfl

theorem valueOf (object : Option ObjectId) : Roams L R (Session.valueOf object) R.found :=
  .read fun _ _ => valueOfWithin _ object

/-- Types that the host makes are no modules. -/
theorem moduleNames_instantiate (host : Host) (type : ObjectId) (arguments : List ObjectId) :
    (host.instantiate type arguments).2.moduleNames = host.moduleNames := by
  simp only [Host.instantiate]
  split
  · rfl
  · split <;> rfl

/-- The host makes a type, and its class is found then. -/
theorem genericType (type : Option ObjectId) (arguments : List ObjectId) :
    Roams L R (Session.genericType type arguments) R.found := by
  cases type with
  | none => exact .pure Realm.found_none
  | some type =>
    intro s hs
    let made := s.host.instantiate type arguments
    have run : Session.genericType (some type) arguments s = Session.classOf? made.1 { s with host := made.2 } :=
      rfl
    have beside : Beside s { s with host := made.2 } := by
      refine .of_growth ?_ rfl rfl (.of_same (.instantiate s.host type arguments) rfl)
      have names := moduleNames_instantiate s.host type arguments
      simp only [surroundings, outside]
      exact congrArg (fun names => (s.values, s.records, s.scopes, s.registry,
        (names, s.modulesByPath, s.entries.map Entry.label), s.watchers)) names
    have known : ∀ t, made.1 = some t → ({ s with host := made.2 } : Session).KnowsType t :=
      fun _ yields => .of_applied (Host.applied_instantiate yields)
    have found := classOf? (L := L) (hs.reserves beside.toReserves) known
    rw [after, run, ← after]
    refine ⟨.head (.steps (.single (.bookkeep (by constructor <;> rfl))) (.single (.beside beside))) found.1, ?_⟩
    exact found.2

theorem objectMembers (object : ObjectId) :
    Roams L R (Session.objectMembers object) fun _ => True := by
  refine .read fun s _ => .bind (.filterMapM fun pair _ => ?_) fun _ _ => .pure trivial
  split
  · exact .pure trivial
  · exact .bind (valueOf _) fun _ _ => .pure trivial

theorem importObject (name : String) : Roams L R (Session.importObject name) fun _ => True :=
  of_beside (fun _ => by constructor <;> rfl) fun s =>
    .of_growth rfl rfl rfl (.of_same (.importModule s.host name) rfl)

end Roams

end Typeflow.Session
