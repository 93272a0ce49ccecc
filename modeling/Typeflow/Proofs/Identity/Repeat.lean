import Typeflow.Proofs.Identity.Remember

/-! Lookups that are repeated. What an action finds out about the host it finds out again, in every session
that remembers the first time. -/
namespace Typeflow

/-- The objects that the value of an object is made from: the object itself, or its alternatives. -/
inductive Host.Involves (host : Host) : Option ObjectId → ObjectId → Prop
  | self (o : ObjectId) : Involves host (some o) o
  | alternative {o x : ObjectId} {a : Option ObjectId} (several : host.classify o = .multipleMembers)
      (mem : a ∈ host.alternatives o) (h : Involves host a x) : Involves host (some o) x

/-- The host has all objects that the object involves, and the numbers among them equal themselves. -/
def Host.Plain (host : Host) (object : Option ObjectId) : Prop :=
  ∀ o, host.Involves object o → o.index < host.objects.size ∧
    ∀ value, (host.object o).shape = .primitive value → (value == value) = true

namespace Host.Plain

variable {h g : Host} {o : ObjectId} {a : Option ObjectId}

theorem has (plain : h.Plain (some o)) : o.index < h.objects.size := (plain o (.self o)).1

theorem alternative (plain : h.Plain (some o)) (several : h.classify o = .multipleMembers)
    (mem : a ∈ h.alternatives o) : h.Plain a :=
  fun x involved => plain x (.alternative several mem involved)

theorem grows (plain : h.Plain a) (grow : h.Grows g) : g.Plain a := by
  have before : ∀ {a x}, g.Involves a x → h.Plain a → h.Involves a x := by
    intro a x involved
    induction involved with
    | self o => exact fun _ => .self o
    | @alternative o x a several mem _ ih =>
      intro plain
      have same := grow.object o plain.has
      rw [classify, same] at several
      rw [alternatives, same] at mem
      exact .alternative several mem (ih (plain.alternative several mem))
  intro o involved
  obtain ⟨there, equals⟩ := plain o (before involved plain)
  rw [grow.object o there]
  exact ⟨Nat.lt_of_lt_of_le there grow.size, equals⟩

end Host.Plain

namespace Session

variable {α β : Type} {s t q : Session}

/-- Whatever the session goes through while it remembers, the action yields this, and it remembers on. -/
def Lasting (s : Session) (m : Analysis α) (a : α) : Prop :=
  ∀ t, Remembers s t → ∃ r, m t = .ok a r ∧ Remembers t r

namespace Lasting

theorem mono {m : Analysis α} {a : α} (h : Lasting s m a) (remembers : Remembers s t) : Lasting t m a :=
  fun q next => h q (remembers.trans next)

theorem bind {m : Analysis α} {f : α → Analysis β} {a : α} {b : β} (h : Lasting s m a)
    (g : Lasting s (f a) b) : Lasting s (m >>= f) b := by
  intro t remembers
  obtain ⟨r, first, next⟩ := h t remembers
  obtain ⟨q, second, last⟩ := g r (remembers.trans next)
  exact ⟨q, (bind_of_ok first).trans second, next.trans last⟩

end Lasting

/-- What `m` yields in a session at rest of the kind `P`, `again` yields ever after. -/
def Repeats (P : Session → Prop) (m again : Analysis α) (Q : α → Session → Prop) : Prop :=
  ∀ s, AtRest s → P s → ∀ a t, m s = .ok a t → Remembers s t ∧ Lasting t again a ∧ Q a t

namespace Repeats

variable {P : Session → Prop} {Q : α → Session → Prop} {m again : Analysis α}

theorem pure {a : α} (h : ∀ s, P s → Q a s) : Repeats P (Pure.pure a) (Pure.pure a) Q := by
  intro s _ hs b t ends
  cases ends
  exact ⟨.refl s, fun q _ => ⟨q, rfl, .refl q⟩, h s hs⟩

theorem bind {f g : α → Analysis β} {Q' : β → Session → Prop} (hm : Repeats P m again Q)
    (hf : ∀ a, Repeats (Q a) (f a) (g a) Q') : Repeats P (m >>= f) (again >>= g) Q' := by
  intro s rest hs b q ends
  obtain ⟨a, t, first, second⟩ := bind_eq_ok ends
  obtain ⟨remembers, lasting, found⟩ := hm s rest hs a t first
  obtain ⟨more, lasts, right⟩ := hf a t (rest.remembers remembers) found b q second
  exact ⟨remembers.trans more, (lasting.mono more).bind lasts, right⟩

/-- What is done may depend on what is read, at first and later. -/
theorem read {f g : Session → Analysis α}
    (h : ∀ s t, P s → Remembers s t → Repeats (· = s) (f s) (g t) Q) : Repeats P (get >>= f) (get >>= g) Q := by
  intro s rest hs a t ends
  obtain ⟨remembers, -, right⟩ := h s s hs (.refl s) s rest rfl a t ends
  refine ⟨remembers, fun q next => ?_, right⟩
  exact (h s q hs (remembers.trans next) s rest rfl a t ends).2.1 q next

theorem mono {P' : Session → Prop} (h : Repeats P m again Q) (kind : ∀ s, P' s → P s) :
    Repeats P' m again Q := fun s rest hs => h s rest (kind s hs)

theorem mapM {f g : β → Analysis α} (stays : ∀ s t, Remembers s t → P s → P t) {items : List β}
    (h : ∀ b ∈ items, Repeats P (f b) (g b) fun _ _ => True) :
    Repeats P (items.mapM f) (items.mapM g) fun _ _ => True := by
  have keeps : ∀ {α : Type} {m again : Analysis α}, Repeats P m again (fun _ _ => True) →
      Repeats P m again fun _ t => P t := fun hm s rest hs a t ends => by
    obtain ⟨remembers, lasting, -⟩ := hm s rest hs a t ends
    exact ⟨remembers, lasting, stays s t remembers hs⟩
  induction items with
  | nil => exact pure fun _ _ => trivial
  | cons b more ih =>
    rw [List.mapM_cons, List.mapM_cons]
    exact bind (keeps (h b List.mem_cons_self)) fun _ =>
      bind (keeps (ih fun c hc => h c (List.mem_cons_of_mem _ hc))) fun _ => pure fun _ _ => trivial

/-- What never fails, yields nothing and is remembered through may be done in the place of its like. -/
theorem tells {m again : Analysis Unit} (h : ∀ s, ∃ t, m s = .ok () t ∧ Remembers s t)
    (h' : ∀ s, ∃ t, again s = .ok () t ∧ Remembers s t) : Repeats P m again fun _ _ => True := by
  intro s _ _ a t ends
  obtain ⟨q, ends', remembers⟩ := h s
  rw [ends'] at ends
  cases ends
  exact ⟨remembers, fun r _ => h' r, trivial⟩

theorem count (name : String) (delta : Nat) :
    Repeats P (Session.count name delta) (Session.count name delta) fun _ _ => True :=
  tells (fun _ => ⟨_, rfl, .of_same rfl rfl (.of_eq rfl) rfl rfl⟩) fun _ => ⟨_, rfl, .of_same rfl rfl (.of_eq rfl) rfl rfl⟩

theorem writeLog (category : LogCategory) (first later : String) :
    Repeats P (Session.writeLog category first) (Session.writeLog category later) fun _ _ => True :=
  tells (fun _ => ⟨_, rfl, .of_same rfl rfl (.of_eq rfl) rfl rfl⟩) fun _ => ⟨_, rfl, .of_same rfl rfl (.of_eq rfl) rfl rfl⟩

/-- A lookup in a memo table finds what is kept from the first time on. -/
theorem lookup {κ : Type} [BEq κ] {field : CacheField Session κ ValueId} {key : κ} {make : Analysis Found}
    (reads : ∀ cache s, field.read (field.write cache s) = cache) (self : (key == key) = true)
    (finished : ∀ s, AtRest s → (field.read s).find? key ≠ some none)
    (stays : ∀ s t, Remembers s t → ∀ v, (field.read s).find? key = some (some v) →
      (field.read t).find? key = some (some v))
    (remembers : ∀ s, P s → Remembers s (after (field.recall key make) s)) :
    Repeats P (field.recall key make) (field.recall key make)
      fun found t => (field.read t).find? key = some found := by
  intro s rest hs found t ends
  have kept : (field.read t).find? key = some found := CacheField.find?_of_recall reads self ends
  have through := remembers s hs
  rw [after_of_ok ends] at through
  refine ⟨through, fun q next => ⟨q, ?_, .refl q⟩, kept⟩
  cases found with
  | none => exact absurd kept (finished t (rest.remembers through))
  | some v => exact CacheField.recall_of_find? (stays t q next v kept) make

theorem objectValue {object : ObjectId} {make : Analysis ValueId}
    (remembers : ∀ s, P s → Remembers s (after (Session.objectValue object make) s)) :
    Repeats P (Session.objectValue object make) (Session.objectValue object make)
      fun found t => t.objectValues.find? object = some found :=
  lookup (fun _ _ => rfl) (by simp) (fun _ rest => rest.objects object)
    (fun _ _ next v => next.objects.stays object v) remembers

theorem constantValue {value : Constant} (self : (value == value) = true) :
    Repeats P (Session.constantValue value) (Session.constantValue value) fun _ _ => True := by
  have found : Repeats P (Session.constantValue value) (Session.constantValue value)
      fun found t => t.constants.find? value = some found :=
    lookup (fun _ _ => rfl) self (fun _ rest => rest.constants value)
      (fun _ _ next v => next.constants.stays value v)
      fun s _ => .of_roams (L := noLicence) (.constantValue value) s
  intro s rest hs a t ends
  obtain ⟨remembers, lasting, -⟩ := found s rest hs a t ends
  exact ⟨remembers, lasting, trivial⟩

theorem classOf? {type : Option ObjectId} (known : ∀ s, P s → ∀ t, type = some t → s.KnowsType t) :
    Repeats P (Session.classOf? type) (Session.classOf? type)
      fun found t => ∀ cls, found = some cls → cls.index < t.values.size := by
  cases type with
  | none => exact pure fun _ _ => by rintro _ ⟨⟩
  | some type =>
    intro s rest hs found t ends
    have through : ∀ s, P s → Remembers s (after (Session.classOf? (some type)) s) := fun s hs =>
      .of_proceeds (L := noLicence) (Roams.classOf? (Realm.closed_all s) (known s hs))
    rw [Session.classOf?, Session.classOf] at ends through ⊢
    obtain ⟨remembers, lasting, kept⟩ := objectValue through s rest hs found t ends
    refine ⟨remembers, lasting, ?_⟩
    rintro cls rfl
    exact ((rest.remembers remembers).hosted type cls kept).1

theorem knownType (id : TypeId) :
    Repeats P (Session.knownType id) (Session.knownType id)
      fun found t => ∀ cls, found = some cls → cls.index < t.values.size :=
  read fun s t _ remembers => by
    rw [Host.typeFor?, Host.typeFor?, remembers.host.types]
    refine classOf? fun r same type known => ?_
    subst same
    exact .of_id known

end Repeats

section Instance

variable {cls v : ValueId} {type : ObjectId}

private theorem builtinInstance_of_kept (form : s.form cls = .builtinClass type)
    (kept : (s.value cls).kept? .instance_ = some v) : builtinInstance cls s = .ok (some v) s := by
  simp only [builtinInstance, read_run, show (s.value cls).form = _ from form, keptOr]
  rw [bind_of_ok (a := v) (t := s)]
  · rfl
  · simp only [read_run, kept]
    rfl

private theorem builtinInstance_of_other (other : (s.form cls).kind ≠ .builtinClass) :
    builtinInstance cls s = .ok none s := by
  cases form : s.form cls <;> rw [form] at other
  case builtinClass => exact absurd rfl other
  all_goals
    simp only [builtinInstance, read_run, show (s.value cls).form = _ from form]
    rfl

/-- The class keeps its instance. -/
theorem kept_of_builtinInstance (form : s.form cls = .builtinClass type) {found : Found}
    (ends : builtinInstance cls s = .ok found t) :
    ∃ v, found = some v ∧ (t.value cls).kept? .instance_ = some v := by
  cases kept : (s.value cls).kept? .instance_ with
  | some v =>
    rw [builtinInstance_of_kept form kept] at ends
    cases ends
    exact ⟨v, rfl, kept⟩
  | none =>
    have there : cls.index < s.values.size := index_lt_of_form (by rw [form]; rintro ⟨⟩)
    let value : Value := ⟨(s.value cls).name, (s.value cls).name, .instance_, .builtinInstance cls, {}, []⟩
    let made := s.withValue value
    have wide : cls.index < made.values.size := by simpa [made, withValue] using Nat.lt_succ_of_lt there
    have run : builtinInstance cls s =
        .ok (some s.nextValue) (made.setValue cls ((made.value cls).keep .instance_ s.nextValue)) := by
      simp only [builtinInstance, read_run, show (s.value cls).form = _ from form, keptOr]
      rw [bind_of_ok (a := s.nextValue)]
      · rfl
      · simp only [read_run, kept]
        rfl
    rw [run] at ends
    cases ends
    exact ⟨s.nextValue, rfl, by rw [value_setValue, if_pos ⟨rfl, wide⟩, Value.kept?_keep, if_pos rfl]⟩

end Instance

namespace Repeats

variable {P : Session → Prop}

theorem builtinInstance (cls : ValueId) :
    Repeats (fun s => cls.index < s.values.size) (Session.builtinInstance cls) (Session.builtinInstance cls)
      fun _ _ => True := by
  intro s _ there found t ends
  have roams : Roams noLicence .all (Session.builtinInstance cls) Realm.all.found := .builtinInstance trivial
  have remembers := Remembers.of_roams roams s
  rw [after_of_ok ends] at remembers
  refine ⟨remembers, fun q next => ⟨q, ?_, .refl q⟩, trivial⟩
  have kind : (q.form cls).kind = (s.form cls).kind := (remembers.trans next).kinds cls there
  by_cases class_ : (s.form cls).kind = .builtinClass
  · obtain ⟨type, form⟩ : ∃ type, s.form cls = .builtinClass type := by
      cases form : s.form cls <;> rw [form] at class_ <;> cases class_
      exact ⟨_, rfl⟩
    obtain ⟨type', form'⟩ : ∃ type, q.form cls = .builtinClass type := by
      rw [class_] at kind
      cases form : q.form cls <;> rw [form] at kind <;> cases kind
      exact ⟨_, rfl⟩
    obtain ⟨v, rfl, kept⟩ := kept_of_builtinInstance form ends
    exact builtinInstance_of_kept form' (next.instances cls v kept)
  · rw [builtinInstance_of_other class_] at ends
    cases ends
    rw [← kind] at class_
    exact builtinInstance_of_other class_

/-- Sets of values are put together in one way. -/
theorem aggregate (members : List Found) :
    Repeats P (Session.aggregate members) (Session.aggregate members) fun _ _ => True := by
  have remembers : ∀ s, Remembers s (after (Session.aggregate members) s) :=
    .of_roams (L := noLicence) (.aggregate fun _ _ => fun _ _ => trivial)
  unfold Session.aggregate at remembers ⊢
  split at remembers
  · exact pure fun _ _ => trivial
  · exact pure fun _ _ => trivial
  · intro s rest hs found t ends
    obtain ⟨through, lasting, -⟩ := lookup (P := P) (fun _ _ => rfl) (by simp)
      (fun _ rest => rest.aggregates _) (fun _ _ next v => next.aggregates.stays _ v) (fun s _ => remembers s)
      s rest hs found t ends
    exact ⟨through, lasting, trivial⟩

theorem unclassifiedValue (object : ObjectId) :
    Repeats P (Session.unclassifiedValue object) (Session.unclassifiedValue object) fun _ _ => True := by
  refine read fun s t _ next => ?_
  rw [Host.declaredType?, Host.declaredType?, next.host.declared]
  refine bind (classOf? fun r same type known => ?_) fun declared => ?_
  · subst same
    exact .of_declared known
  cases declared with
  | some cls => exact (builtinInstance cls).mono fun _ there => there cls rfl
  | none =>
    refine bind (count _ _) fun _ => read fun s t _ _ => read fun s' t' _ next => ?_
    rw [next.options]
    split
    · rintro s _ _ a t ⟨⟩
    · refine bind (writeLog _ _ _) fun _ => bind (knownType _) fun found => ?_
      cases found with
      | some cls => exact (builtinInstance cls).mono fun _ there => there cls rfl
      | none => exact pure fun _ _ => trivial

/-- The host may have made more types, but not in the place of an object. -/
theorem simpleValue (object : ObjectId) (kind : HostKind) :
    Repeats (fun s => s.host.Plain (some object) ∧ s.host.classify object = kind)
      (Session.simpleValue object kind) (Session.simpleValue object kind) fun _ _ => True := by
  have kept : ∀ make, Session.simpleValue object kind = Session.objectValue object make →
      Repeats (fun s => s.host.Plain (some object) ∧ s.host.classify object = kind)
        (Session.simpleValue object kind) (Session.simpleValue object kind) fun _ _ => True :=
      fun make same s rest hs a t ends => by
    have through : ∀ s, s.host.Plain (some object) ∧ s.host.classify object = kind →
        Remembers s (after (Session.simpleValue object kind) s) := fun s hs =>
      .of_proceeds (L := noLicence) (Roams.simpleValue (Realm.closed_all s) hs.2)
    rw [same] at ends through ⊢
    obtain ⟨remembers, lasting, -⟩ := objectValue through s rest hs a t ends
    exact ⟨remembers, lasting, trivial⟩
  cases kind with
  | primitive =>
    refine read fun s t hs next => ?_
    rw [next.host.object object hs.1.has]
    split
    · next value shape => exact constantValue ((hs.1 object (.self object)).2 value shape)
    · exact pure fun _ _ => trivial
  | multipleMembers | unknown => exact unclassifiedValue object
  | type => exact kept _ (by rw [Session.simpleValue, Session.classOf])
  | module => exact kept _ (by rw [Session.simpleValue, Session.moduleOfObject])
  | _ => exact kept _ rfl

theorem valueOfWithin {depth more : Nat} (le : depth ≤ more) (object : Option ObjectId) :
    Repeats (fun s => s.host.Plain object) (Session.valueOfWithin depth object)
      (Session.valueOfWithin more object) fun _ _ => True := by
  induction depth generalizing more object with
  | zero =>
    cases object with
    | none => cases more <;> exact constantValue rfl
    | some object => rintro s _ _ a t ⟨⟩
  | succ depth ih =>
    obtain ⟨more, rfl⟩ : ∃ n, more = n + 1 := ⟨more - 1, by omega⟩
    cases object with
    | none => exact constantValue rfl
    | some object =>
      refine read fun s t plain next => ?_
      have same := next.host.object object plain.has
      have classify : t.host.classify object = s.host.classify object := by
        rw [Host.classify, Host.classify, same]
      have alternatives : t.host.alternatives object = s.host.alternatives object := by
        rw [Host.alternatives, Host.alternatives, same]
      dsimp only
      rw [classify, alternatives]
      split
      · next several =>
        let members := s.host.alternatives object
        have each : Repeats (fun r => ∀ a ∈ members, r.host.Plain a)
            (members.mapM (Session.valueOfWithin depth)) (members.mapM (Session.valueOfWithin more))
            fun _ _ => True := by
          refine mapM (fun _ _ next plains a ha => (plains a ha).grows next.host) fun a ha => ?_
          exact (ih (Nat.le_of_succ_le_succ le) a).mono fun _ plains => plains a ha
        refine bind (each.mono ?_) fun _ => aggregate _
        rintro _ rfl a ha
        exact plain.alternative several ha
      · exact (simpleValue object _).mono (by rintro _ rfl; exact ⟨plain, rfl⟩)

/-- The value of an object is found again, however much the host has made since. -/
theorem valueOf (object : Option ObjectId) :
    Repeats (fun s => s.host.Plain object) (Session.valueOf object) (Session.valueOf object)
      fun _ _ => True := by
  refine read fun s t plain next => (valueOfWithin ?_ object).mono (by rintro _ rfl; exact plain)
  exact Nat.succ_le_succ next.host.size

end Repeats

end Session

end Typeflow
