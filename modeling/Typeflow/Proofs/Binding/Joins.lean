import Typeflow.Proofs.Accumulation
import Typeflow.Proofs.Binding.Supplied
import Typeflow.Proofs.Effect.Memo
import Typeflow.Proofs.Lookup.Frame
import Typeflow.Proofs.Lookup.Total
import Typeflow.Proofs.Roam.Members

/-! What additions to records come to, one after the other. Between them values may be made for the session to
keep, which changes no types. -/
namespace Typeflow

namespace ValueSet

def gather (cap : Nat) (start : ValueSet) (sets : List ValueSet) : ValueSet :=
  sets.foldl (fun held values => held.union values cap) start

private theorem gather_append (cap : Nat) (start : ValueSet) (a b : List ValueSet) :
    gather cap start (a ++ b) = gather cap (gather cap start a) b := List.foldl_append

private theorem members_le_gather (cap : Nat) (start : ValueSet) (sets : List ValueSet) :
    start.members ≤ (gather cap start sets).members := by
  induction sets generalizing start with
  | nil => exact le_rfl
  | cons values rest ih => exact le_trans (members_le_union start values cap) (ih _)

/-- The cap is checked every time, which comes to one check at the end. -/
theorem members_gather (cap : Nat) (start : ValueSet) {sets : List ValueSet} (some : sets ≠ []) :
    (gather cap start sets).members = capAt cap (start.members ⊔ sets.toFinset.sup members) := by
  induction sets generalizing start with
  | nil => exact absurd rfl some
  | cons values rest ih =>
    have first := members_union start values cap
    rw [List.toFinset_cons, Finset.sup_insert, ← sup_assoc]
    cases rest with
    | nil => simpa [gather] using first
    | cons more rest =>
      have others := ih (start.union values cap) (List.cons_ne_nil more rest)
      rw [first, capAt_sup_capAt] at others
      exact others

end ValueSet

namespace Session

variable {s t r q : Session} {α β : Type}

def setsFor (x : VarId) (sets : List (VarId × ValueSet)) : List ValueSet :=
  sets.filterMap fun one => if one.1 = x then some one.2 else none

private theorem setsFor_append (x : VarId) (a b : List (VarId × ValueSet)) :
    setsFor x (a ++ b) = setsFor x a ++ setsFor x b := List.filterMap_append

theorem mem_setsFor {x : VarId} {values : ValueSet} {sets : List (VarId × ValueSet)} :
    values ∈ setsFor x sets ↔ (x, values) ∈ sets := by
  simp only [setsFor, List.mem_filterMap]
  constructor
  · rintro ⟨one, mem, found⟩
    split at found
    · next same =>
      cases found
      exact same ▸ mem
    · cases found
  · exact fun mem => ⟨_, mem, if_pos rfl⟩

/-- What the session has and keeps stays, and so do the names. -/
structure Maintains (s t : Session) : Prop where
  host : t.host = s.host
  scopes : t.scopes = s.scopes
  values : s.values.size ≤ t.values.size
  form : ∀ v, v.index < s.values.size → t.form v = s.form v
  kept : ∀ v slot w, (s.value v).kept? slot = some w → (t.value v).kept? slot = some w
  cached : ∀ object found, s.objectValues.find? object = some found → t.objectValues.find? object = some found
  records : s.records.size ≤ t.records.size
  caps : ∀ x, x.index < s.records.size → (t.var x).cap = (s.var x).cap

namespace Maintains

theorem refl (s : Session) : Maintains s s :=
  ⟨rfl, rfl, Nat.le_refl _, fun _ _ => rfl, fun _ _ _ h => h, fun _ _ h => h, Nat.le_refl _, fun _ _ => rfl⟩

theorem trans (h : Maintains s t) (g : Maintains t r) : Maintains s r where
  host := g.host.trans h.host
  scopes := g.scopes.trans h.scopes
  values := Nat.le_trans h.values g.values
  form v hv := (g.form v (Nat.lt_of_lt_of_le hv h.values)).trans (h.form v hv)
  kept v slot w hw := g.kept v slot w (h.kept v slot w hw)
  cached object found ho := g.cached object found (h.cached object found ho)
  records := Nat.le_trans h.records g.records
  caps x hx := (g.caps x (Nat.lt_of_lt_of_le hx h.records)).trans (h.caps x hx)

theorem findName? (h : Maintains s t) (c : ScopeId) (name : String) : t.findName? c name = s.findName? c name := by
  rw [Session.findName?, scope, h.scopes]
  rfl

theorem hasElements (h : Maintains s t) {w : ValueId} (there : s.HasElements w) : t.HasElements w := by
  obtain ⟨type, x, form, size⟩ := there
  refine ⟨type, x, ?_, Nat.lt_of_lt_of_le size h.records⟩
  rw [h.form w (index_lt_of_form (by rw [form]; rintro ⟨⟩)), form]

/-- A change of records that leaves their caps, and of the queue. -/
theorem of_records (frame : t = { s with records := t.records, queue := t.queue, metrics := t.metrics })
    (records : t.records.size = s.records.size) (caps : ∀ x, (t.var x).cap = (s.var x).cap) : Maintains s t := by
  rw [frame]
  exact ⟨rfl, rfl, Nat.le_refl _, fun _ _ => rfl, fun _ _ _ h => h, fun _ _ h => h, Nat.le_of_eq records.symm,
    fun x _ => by rw [← frame, caps]⟩

end Maintains

/-- Values and empty records are made and kept, and nothing else happens. -/
structure Furnishes (s t : Session) : Prop extends Maintains s t where
  types : ∀ x, t.types x = s.types x
  queue : t.queue = s.queue

namespace Furnishes

theorem refl (s : Session) : Furnishes s s := ⟨.refl s, fun _ => rfl, rfl⟩

theorem trans (h : Furnishes s t) (g : Furnishes t r) : Furnishes s r :=
  ⟨h.toMaintains.trans g.toMaintains, fun x => (g.types x).trans (h.types x), g.queue.trans h.queue⟩

theorem withValue (value : Value) : Furnishes s (s.withValue value) := by
  refine ⟨⟨rfl, rfl, by simp [Session.withValue], fun v hv => ?_, fun v slot w hw => ?_, fun _ _ h => h,
    Nat.le_refl _, fun _ _ => rfl⟩, fun _ => rfl, rfl⟩
  · rw [Session.form, Session.withValue, value_push, if_neg (Nat.ne_of_lt hv), Session.form]
  · rw [Session.withValue, value_push, if_neg, hw]
    intro new
    rw [value_of_le (Nat.le_of_eq new.symm)] at hw
    cases hw

theorem newVariable (cap : Nat) : Furnishes s { s with records := s.records.push { cap } } := by
  refine ⟨⟨rfl, rfl, Nat.le_refl _, fun _ _ => rfl, fun _ _ _ h => h, fun _ _ h => h, by simp, fun x hx => ?_⟩,
    (Fills.push s cap).types, rfl⟩
  rw [Fills.var_push, if_neg (Nat.ne_of_lt hx)]

/-- A value is kept in a slot that was free. -/
theorem keep {v w : ValueId} {slot : Slot} (free : (s.value v).kept? slot = none) :
    Furnishes s (s.setValue v ((s.value v).keep slot w)) := by
  refine ⟨⟨rfl, rfl, by simp [setValue], fun u _ => ?_, fun u asked other hw => ?_,
    fun _ _ h => h, Nat.le_refl _, fun _ _ => rfl⟩, fun _ => rfl, rfl⟩
  · have same : ((s.value v).keep slot w).form = s.form v := rfl
    exact congr_form_setValue id same u
  rw [value_setValue]
  split
  · next own =>
    rw [own.1] at hw
    rw [Value.kept?_keep, if_neg, hw]
    rintro rfl
    rw [free] at hw
    cases hw
  · exact hw

end Furnishes

private theorem kept_withValue {value : Value} (bare : value.kept = []) (s : Session) (v : ValueId) :
    ((s.withValue value).value v).kept = (s.value v).kept := by
  rw [withValue, value_push]
  split
  · next new => rw [bare, value_of_le (Nat.le_of_eq new.symm)]; rfl
  · rfl

section Known

variable {cls : ValueId} {type : ObjectId}

private theorem classOf_of_cached {found : Found} (cached : s.objectValues.find? type = some found) :
    classOf type s = .ok found s := by
  have lookup : (objectField.read s).find? type = some found := cached
  rw [classOf, objectValue, CacheField.recall_of_find? lookup]

/-- The class of a type is found, or made and found from then on. -/
theorem classOf_run (type : ObjectId) (s : Session) :
    ∃ found t, classOf type s = .ok found t ∧ Furnishes s t ∧ (∀ v, (t.value v).kept = (s.value v).kept) ∧
      t.objectValues.find? type = some found := by
  cases cached : s.objectValues.find? type with
  | some found => exact ⟨found, s, classOf_of_cached cached, .refl s, fun _ => rfl, cached⟩
  | none =>
    let reserved : Session := { s with objectValues := s.objectValues.reserve type }
    let counted := after (count "cache_misses" 1) reserved
    let name := s.host.nameOf type
    let made := counted.withValue ⟨name, "type " ++ name, .class_, .builtinClass type, {}, []⟩
    have missing : (objectField.read s).find? type = none := cached
    have run : classOf type s =
        .ok (some s.nextValue) { made with objectValues := made.objectValues.put type (some s.nextValue) } := by
      rw [classOf, objectValue]
      exact CacheField.recall_of_make (t := made) missing rfl
    refine ⟨_, _, run, ?_, kept_withValue rfl counted, Cache.find?_put_self (beq_self_eq_true type) _ _⟩
    have furnished : Furnishes counted made := .withValue _
    refine ⟨⟨rfl, rfl, furnished.values, furnished.form, furnished.kept, fun object found ho => ?_, Nat.le_refl _,
      fun _ _ => rfl⟩, fun _ => rfl, rfl⟩
    have other : (object == type) = false := by
      rw [beq_eq_false_iff_ne]
      rintro rfl
      rw [cached] at ho
      cases ho
    have stays : (s.objectValues.reserve type).find? object = some found := Cache.find?_reserve_of_some ho
    exact (Cache.find?_put_eq _ _ _ _).trans (by rw [other]; exact stays)

private theorem knownType_run (id : TypeId) (s : Session) :
    ∃ found t, knownType id s = .ok found t ∧ Furnishes s t ∧ (∀ v, (t.value v).kept = (s.value v).kept) ∧
      ∀ q, Maintains t q → knownType id q = .ok found q := by
  cases known : s.host.typeFor? id with
  | none =>
    have nothing : ∀ q : Session, q.host = s.host → knownType id q = .ok none q := fun q host => by
      rw [knownType, read_run, host, known]
      rfl
    exact ⟨none, s, nothing s rfl, .refl s, fun _ => rfl, fun q maintains => nothing q maintains.host⟩
  | some type =>
    have finds : ∀ q : Session, q.host = s.host → knownType id q = classOf type q := fun q host => by
      rw [knownType, read_run, host, known]
      rfl
    obtain ⟨found, t, run, furnishes, kept, cached⟩ := classOf_run type s
    refine ⟨found, t, (finds s rfl).trans run, furnishes, kept, fun q maintains => ?_⟩
    rw [finds q (maintains.host.trans furnishes.host), classOf_of_cached (maintains.cached type found cached)]

/-- The instance of a class is made once. -/
theorem keptInstance_run (there : cls.index < s.values.size) (name description : String) (form : Form) :
    ∃ made t, keptOr cls .instance_ (newValue name description .instance_ form) s = .ok made t ∧
      Furnishes s t ∧ t.exemplar? cls = some made := by
  cases kept : s.exemplar? cls with
  | some made => exact ⟨made, s, keptOr_run_of_some kept _, .refl s, kept⟩
  | none =>
    let value : Value := ⟨name, description, .instance_, form, {}, []⟩
    have old : (s.withValue value).value cls = s.value cls :=
      (value_push s value cls).trans (if_neg (Nat.ne_of_lt there))
    have furnishes : Furnishes s (s.withInstance cls value) := by
      rw [withInstance, ← old]
      exact (Furnishes.withValue value).trans (.keep (by rw [old]; exact kept))
    exact ⟨_, _, keptOr_run_of_none kept there name description .instance_ form, furnishes, by
      rw [exemplar?_withInstance rfl there, if_pos rfl]⟩

private theorem instancesOf_of_builtin (form : s.form cls = .builtinClass type) {made : ValueId}
    (run : keptOr cls .instance_
      (newValue (s.value cls).name (s.value cls).name .instance_ (.builtinInstance cls)) s = .ok made t) :
    instancesOf cls s = .ok (.single (some made)) t := by
  have builtin : builtinInstance cls s = .ok (some made) t := by
    rw [builtinInstance, read_run, show (s.value cls).form = _ from form]
    exact bind_of_ok run
  rw [instancesOf, read_run, form]
  exact bind_of_ok builtin

private theorem instancesOf_of_user {c : UserClass} (form : s.form cls = .userClass c) {made : ValueId}
    (run : keptOr cls .instance_
      (newValue (s.value cls).name ((s.value cls).name ++ " instance") .instance_ (.userInstance cls {})) s =
        .ok made t) :
    instancesOf cls s = .ok (.single (some made)) t := by
  have user : userInstance cls s = .ok (some made) t := by
    rw [userInstance, read_run, show (s.value cls).form = _ from form]
    exact bind_of_ok run
  rw [instancesOf, read_run, form]
  exact bind_of_ok user

/-- The instances of a value are the same as long as no value is made or kept. -/
theorem instancesOf_again (v : ValueId) (s : Session) :
    ∃ found t, instancesOf v s = .ok found t ∧ Furnishes s t ∧
      ∀ q : Session, q.values = t.values → instancesOf v q = .ok found q := by
  have stays : ∀ {q t : Session}, q.values = t.values → q.form v = t.form v ∧ q.exemplar? v = t.exemplar? v := by
    intro q t values
    simp only [Session.form, exemplar?, value, values, and_self]
  cases form : s.form v with
  | builtinClass type =>
    have there : v.index < s.values.size := index_lt_of_form (by rw [form]; rintro ⟨⟩)
    obtain ⟨made, t, run, furnishes, kept⟩ :=
      keptInstance_run there (s.value v).name (s.value v).name (.builtinInstance v)
    refine ⟨_, t, instancesOf_of_builtin form run, furnishes, fun q values => ?_⟩
    have same : q.form v = .builtinClass type := by rw [(stays values).1, furnishes.form v there, form]
    exact instancesOf_of_builtin same (keptOr_run_of_some (by rw [(stays values).2, kept]) _)
  | userClass c =>
    have there : v.index < s.values.size := index_lt_of_form (by rw [form]; rintro ⟨⟩)
    obtain ⟨made, t, run, furnishes, kept⟩ :=
      keptInstance_run there (s.value v).name ((s.value v).name ++ " instance") (.userInstance v {})
    refine ⟨_, t, instancesOf_of_user form run, furnishes, fun q values => ?_⟩
    have same : q.form v = .userClass c := by rw [(stays values).1, furnishes.form v there, form]
    exact instancesOf_of_user same (keptOr_run_of_some (by rw [(stays values).2, kept]) _)
  | _ =>
    have nothing : ∀ q : Session, q.form v = s.form v → instancesOf v q = .ok .empty q := by
      intro q same
      rw [instancesOf, read_run, same, form]
      rfl
    exact ⟨.empty, s, nothing s rfl, .refl s, fun q values => nothing q (stays values).1⟩

theorem knownInstance_run (id : TypeId) (s : Session) :
    ∃ found t, knownInstance id s = .ok found t ∧ Furnishes s t ∧
      ∀ q, Maintains t q → q.values = t.values → knownInstance id q = .ok found q := by
  obtain ⟨cls?, r, first, furnishes, -, again⟩ := knownType_run id s
  cases cls? with
  | none =>
    refine ⟨.empty, r, ?_, furnishes, fun q maintains _ => ?_⟩
    · rw [knownInstance, bind_of_ok first]
      rfl
    · rw [knownInstance, bind_of_ok (again q maintains)]
      rfl
  | some cls =>
    obtain ⟨found, t, second, more, repeats⟩ := instancesOf_again cls r
    refine ⟨found, t, ?_, furnishes.trans more, fun q maintains values => ?_⟩
    · rw [knownInstance, bind_of_ok first]
      exact second
    · rw [knownInstance, bind_of_ok (again q (more.toMaintains.trans maintains))]
      exact repeats q values

end Known

section Rest

variable {v w : ValueId}

theorem restTuple_of_kept (kept : (s.value v).kept? .rest = some w) : restTuple v s = .ok w s := by
  simp only [restTuple, keptOr, read_run, kept]
  rfl

/-- The tuple for left-over arguments is made once. -/
theorem restTuple_run (there : v.index < s.values.size)
    (fits : ∀ w, (s.value v).kept? .rest = some w → s.HasElements w) :
    ∃ w t, restTuple v s = .ok w t ∧ Furnishes s t ∧ (t.value v).kept? .rest = some w ∧ t.HasElements w := by
  cases kept : (s.value v).kept? .rest with
  | some w => exact ⟨w, s, restTuple_of_kept kept, .refl s, kept, fits w kept⟩
  | none =>
    obtain ⟨type, r, known, furnishes, untouched, -⟩ := knownType_run .tuple s
    obtain ⟨name, made⟩ := Roams.newSequence_run type r
    let counted : Session := { r with records := r.records.push { cap := r.options.limits.variableTypes } }
    let tuple : Value := ⟨name, name, .instance_, .sequence type ⟨r.records.size⟩, {}, []⟩
    let t := counted.withValue tuple
    have more : Furnishes r t := (Furnishes.newVariable _).trans (.withValue tuple)
    have free : (t.value v).kept? .rest = none := by
      have bare : (t.value v).kept = (r.value v).kept := kept_withValue rfl counted v
      rw [Value.kept?, bare, untouched]
      exact kept
    have run : restTuple v s = .ok r.nextValue (t.setValue v ((t.value v).keep .rest r.nextValue)) := by
      simp only [restTuple, keptOr, read_run, kept, bind_assoc]
      rw [bind_of_ok known, bind_of_ok made]
      rfl
    have keeps : Furnishes t (t.setValue v ((t.value v).keep .rest r.nextValue)) := .keep free
    refine ⟨_, _, run, (furnishes.trans more).trans keeps, ?_, ?_⟩
    · rw [value_setValue, if_pos ⟨rfl, Nat.lt_of_lt_of_le there (furnishes.trans more).values⟩, Value.kept?_keep,
        if_pos rfl]
    · refine keeps.hasElements ⟨type, ⟨r.records.size⟩, ?_, ?_⟩
      · exact (form_push counted tuple r.nextValue).trans (if_pos rfl)
      · simp [t, counted, withValue]

end Rest

/-- The sets were taken in by their records, at the caps of these, and nothing else was. The answer says whether
that is news to any record; if not, no unit was queued. -/
structure Joins (sets : List (VarId × ValueSet)) (news : Bool) (s t : Session) : Prop extends Maintains s t where
  there : ∀ one ∈ sets, one.1.index < t.records.size
  types : ∀ x, t.types x = ValueSet.gather (t.var x).cap (s.types x) (setsFor x sets)
  changed : news = true ↔ ∃ x, t.types x ≠ s.types x
  queue : news = false → t.queue = s.queue

namespace Joins

variable {sets more : List (VarId × ValueSet)} {news again : Bool}

theorem of_furnishes (h : Furnishes s t) : Joins [] false s t where
  toMaintains := h.toMaintains
  there := by simp
  types := h.types
  changed := by simp [h.types]
  queue _ := h.queue

theorem refl (s : Session) : Joins [] false s s := of_furnishes (.refl s)

theorem grows (h : Joins sets news s t) (x : VarId) : (s.types x).members ≤ (t.types x).members := by
  rw [h.types]
  exact ValueSet.members_le_gather _ _ _

theorem same (h : Joins sets false s t) (x : VarId) : t.types x = s.types x := by
  by_contra differs
  exact Bool.false_ne_true (h.changed.2 ⟨x, differs⟩)

/-- What has changed once does not change back. -/
theorem stays (h : Joins sets news s t) (g : Joins more again t r) {x : VarId} (back : r.types x = s.types x) :
    t.types x = s.types x :=
  ValueSet.eq_iff_members.2 (le_antisymm (back ▸ g.grows x) (h.grows x))

theorem trans (h : Joins sets news s t) (g : Joins more again t r) :
    Joins (sets ++ more) (again || news) s r where
  toMaintains := h.toMaintains.trans g.toMaintains
  there one mem := by
    rcases List.mem_append.1 mem with first | second
    · exact Nat.lt_of_lt_of_le (h.there one first) g.records
    · exact g.there one second
  types x := by
    rw [g.types, h.types, setsFor_append, ValueSet.gather_append]
    cases first : setsFor x sets with
    | nil => rfl
    | cons values rest =>
      have mem : (x, values) ∈ sets := mem_setsFor.1 (by rw [first]; exact List.mem_cons_self)
      rw [g.caps x (h.there _ mem)]
  changed := by
    constructor
    · intro yes
      rcases Bool.or_eq_true_iff.1 yes with later | before
      · obtain ⟨x, differs⟩ := g.changed.1 later
        exact ⟨x, fun back => differs (back.trans (h.stays g back).symm)⟩
      · obtain ⟨x, differs⟩ := h.changed.1 before
        exact ⟨x, fun back => differs (h.stays g back)⟩
    · rintro ⟨x, differs⟩
      cases again with
      | true => rfl
      | false => exact h.changed.2 ⟨x, fun same => differs ((g.same x).trans same)⟩
  queue none := by
    obtain ⟨later, before⟩ := Bool.or_eq_false_iff.1 none
    rw [g.queue later, h.queue before]

theorem addTypes {x : VarId} (there : x.index < s.records.size) (values : ValueSet) :
    ∃ news t, Session.addTypes x values s = .ok news t ∧ t.values = s.values ∧
      Joins [(x, values)] news s t := by
  rcases addTypes_cases x values s with ⟨none, kept⟩ | ⟨record, some, told⟩
  · refine ⟨false, s, kept, rfl, .refl s, by simpa using there, fun y => ?_, by simp, fun _ => rfl⟩
    by_cases own : x = y
    · subst own
      exact (Variable.grow?_eq_none.1 none).symm.trans (by simp [setsFor, ValueSet.gather, Session.types])
    · simp [setsFor, own, ValueSet.gather]
  · have grown := Variable.eq_of_grow? some
    have differs := (Variable.types_of_grow? some).2
    let grow : Session := { s with records := s.records.setIfInBounds x.index record }
    have size : grow.records.size = s.records.size := Array.size_setIfInBounds
    have notifies := notifies_notifyReaders x grow
    have var : ∀ y, (after (notifyReaders x) grow).var y =
        if y = x then record.sweep grow.isAlive else s.var y := by
      intro y
      rw [var_notifyReaders, size]
      simp only [there, and_true]
      split
      · rw [var_setIfInBounds, if_pos ⟨rfl, there⟩]
      · next other => rw [var_setIfInBounds, if_neg fun own => other own.1]
    have caps : ∀ y, ((after (notifyReaders x) grow).var y).cap = (s.var y).cap := by
      intro y
      rw [var]
      split
      · next own =>
        rw [own, grown]
        rfl
      · rfl
    have types : ∀ y, (after (notifyReaders x) grow).types y =
        if y = x then (s.types x).union values (s.var x).cap else s.types y := by
      intro y
      rw [Session.types, var]
      split
      · rw [grown]
        rfl
      · rfl
    refine ⟨true, _, told, by rw [notifies.frame],
      .of_records (by rw [notifies.frame]) (notifies.size.trans size) caps, fun one mem => ?_, fun y => ?_, ?_,
      by rintro ⟨⟩⟩
    · rw [List.mem_singleton.1 mem]
      exact Nat.lt_of_lt_of_eq there (notifies.size.trans size).symm
    · rw [types, caps]
      by_cases own : y = x
      · subst own
        simp [setsFor, ValueSet.gather]
      · simp [setsFor, own, Ne.symm own, ValueSet.gather]
    · refine ⟨fun _ => ⟨x, ?_⟩, fun _ => rfl⟩
      rw [types, if_pos rfl]
      rw [grown] at differs
      exact differs

end Joins

end Session

end Typeflow
