import Typeflow.Proofs.Ambiguity
import Typeflow.Proofs.Identity
import Typeflow.Proofs.Registry.History
import Typeflow.Proofs.Registry.Validity

/-! Values of objects and dotted names are found in finitely many steps, unless an ambiguous binding is among
its own alternatives. -/
namespace Typeflow.Session

variable {α β : Type} {s t : Session} {host : Host}

/-- The action comes to an end, whatever session it is begun in. -/
def Ends (m : Analysis α) : Prop := ∀ s t, m s ≠ .error .endless t

namespace Ends

variable {m : Analysis α} {f : α → Analysis β}

theorem of_total (h : Total m) : Ends m := by
  intro s t ends
  obtain ⟨a, ok⟩ := h s
  rw [ok] at ends
  cases ends

theorem pure (a : α) : Ends (Pure.pure a) := of_total (.pure a)

theorem bind (hm : Ends m) (hf : ∀ a, Ends (f a)) : Ends (m >>= f) := by
  intro s t ends
  cases run : m s with
  | ok a r =>
    rw [bind_of_ok run] at ends
    exact hf a r t ends
  | error e r =>
    rw [bind_of_error run] at ends
    cases ends
    exact hm s t run

theorem read {f : Session → Analysis β} (hf : ∀ s, Ends (f s)) : Ends (get >>= f) := fun s => hf s s

theorem count (name : String) (delta : Nat) : Ends (Session.count name delta) := of_total (.modify _)

theorem newValue (name description : String) (type : MemberType) (form : Form) :
    Ends (Session.newValue name description type form) := of_total (.modifyGet _)

/-- A lookup ends when the computation for a missing key does. -/
theorem of_recall {κ : Type} [BEq κ] {field : CacheField Session κ ValueId} {key : κ} {make : Analysis Found}
    (h : Ends make) : Ends (field.recall key make) := by
  intro s t ends
  simp only [CacheField.recall] at ends
  split at ends
  · cases ends
  · split at ends
    · cases ends
    · next run =>
      cases ends
      exact h _ _ run

theorem objectValue {object : ObjectId} {make : Analysis ValueId} (h : Ends make) :
    Ends (Session.objectValue object make) :=
  of_recall (bind (count _ _) fun _ => bind h fun _ => pure _)

theorem classOf (type : ObjectId) : Ends (Session.classOf type) :=
  objectValue (read fun _ => newValue _ _ _ _)

theorem classOf? (type : Option ObjectId) : Ends (Session.classOf? type) := by
  cases type with
  | none => exact pure _
  | some type => exact classOf type

theorem knownType (id : TypeId) : Ends (Session.knownType id) := read fun _ => classOf? _

theorem moduleOfObject (object : ObjectId) : Ends (Session.moduleOfObject object) :=
  objectValue (read fun _ => newValue _ _ _ _)

theorem classNameOr (cls : Found) (word : String) : Ends (Session.classNameOr cls word) := by
  cases cls with
  | none => exact pure _
  | some cls => exact read fun _ => pure _

theorem builtinInstance (cls : ValueId) : Ends (Session.builtinInstance cls) := by
  refine read fun s => ?_
  dsimp only
  split
  · refine bind (read fun _ => ?_) fun _ => pure _
    split
    · exact pure _
    · exact bind (newValue _ _ _ _) fun _ => bind (of_total (.modify _)) fun _ => pure _
  · exact pure _

theorem constantValue (value : Constant) : Ends (Session.constantValue value) :=
  of_recall (bind (count _ _) fun _ => read fun _ => bind (knownType _) fun _ =>
    bind (classNameOr _ _) fun _ => bind (newValue _ _ _ _) fun _ => pure _)

theorem aggregate (members : List Found) : Ends (Session.aggregate members) := by
  unfold Session.aggregate
  split
  · exact pure _
  · exact pure _
  · exact of_recall (read fun _ => bind (newValue _ _ _ _) fun _ => pure _)

/-- An object that is not what it claims to be has a value or is a fault of its own. -/
theorem unclassifiedValue (object : ObjectId) : Ends (Session.unclassifiedValue object) := by
  refine read fun s => bind (classOf? _) fun declared => ?_
  cases declared with
  | some cls => exact builtinInstance cls
  | none =>
    refine bind (count _ _) fun _ => read fun _ => read fun _ => ?_
    split
    · rintro _ _ ⟨⟩
    · refine bind (of_total (.modify _)) fun _ => bind (knownType _) fun found => ?_
      cases found with
      | some cls => exact builtinInstance cls
      | none => exact pure _

theorem simpleValue (object : ObjectId) (kind : HostKind) : Ends (Session.simpleValue object kind) := by
  cases kind with
  | type => exact classOf object
  | function | methodDescriptor => exact objectValue (read fun _ => newValue _ _ _ _)
  | property | memberContainer => exact objectValue (newValue _ _ _ _)
  | module => exact moduleOfObject object
  | constant =>
    exact objectValue (read fun _ => bind (classOf? _) fun _ => bind (classNameOr _ _) fun _ => newValue _ _ _ _)
  | primitive =>
    refine read fun _ => ?_
    split
    · exact constantValue _
    · exact pure _
  | multipleMembers | unknown => exact unclassifiedValue object

theorem lookupModule (name : String) : Ends (Session.lookupModule name) := by
  refine read fun s => ?_
  split
  · exact pure _
  · refine read fun s => ?_
    split
    · exact pure _
    · refine bind (of_total (.modifyGet _)) fun object => ?_
      cases object with
      | none => exact bind (of_total (.modify _)) fun _ => pure _
      | some object =>
        refine bind (moduleOfObject object) fun m => bind (of_total (.modify _)) fun _ => ?_
        exact bind (of_total (.modify _)) fun _ => bind (of_total (total_installFor name)) fun _ => pure _

theorem moduleNamed (name : String) : Ends (Session.moduleNamed name) := by
  refine bind (lookupModule name) fun found => ?_
  cases found with
  | none => exact pure _
  | some r => exact read fun _ => pure _

end Ends

/-- Where the first action comes to an end, the second one does the same. -/
def Deepens (m n : Analysis α) : Prop := ∀ s, (∀ t, m s ≠ .error .endless t) → n s = m s

namespace Deepens

variable {m n : Analysis α} {f g : α → Analysis β}

theorem refl (m : Analysis α) : Deepens m m := fun _ _ => rfl

theorem of_endless (n : Analysis α) : Deepens (throw .endless) n := fun s ends => absurd rfl (ends s)

theorem bind (hm : Deepens m n) (hf : ∀ a, Deepens (f a) (g a)) : Deepens (m >>= f) (n >>= g) := by
  intro s ends
  have first : n s = m s := by
    refine hm s fun t run => ends t ?_
    rw [bind_of_error run]
  cases run : m s with
  | ok a r =>
    rw [run] at first
    rw [bind_of_ok run] at ends ⊢
    rw [bind_of_ok first]
    exact hf a r ends
  | error e r =>
    rw [run] at first
    rw [bind_of_error run, bind_of_error first]

theorem read {f g : Session → Analysis α} (h : ∀ s, Deepens (f s) (g s)) : Deepens (get >>= f) (get >>= g) :=
  fun s => h s s

theorem mapM (h : ∀ a, Deepens (f a) (g a)) (items : List α) : Deepens (items.mapM f) (items.mapM g) := by
  induction items with
  | nil => exact refl _
  | cons a rest ih =>
    rw [List.mapM_cons, List.mapM_cons]
    exact bind (h a) fun _ => bind ih fun _ => refl _

theorem valueOfWithin {depth more : Nat} (le : depth ≤ more) (object : Option ObjectId) :
    Deepens (Session.valueOfWithin depth object) (Session.valueOfWithin more object) := by
  induction depth generalizing more object with
  | zero =>
    cases object with
    | none => cases more <;> exact refl _
    | some o => exact of_endless _
  | succ depth ih =>
    obtain ⟨more, rfl⟩ : ∃ n, more = n + 1 := ⟨more - 1, by omega⟩
    cases object with
    | none => exact refl _
    | some o =>
      refine read fun s => ?_
      dsimp only
      split
      · exact bind (mapM (fun other => ih (Nat.le_of_succ_le_succ le) other) _) fun _ => refl _
      · exact refl _

theorem fromMemberWithin {depth more : Nat} (le : depth ≤ more) (object : Option ObjectId) (names : List String) :
    Deepens (Session.fromMemberWithin depth object names) (Session.fromMemberWithin more object names) := by
  induction depth generalizing more object names with
  | zero =>
    cases object with
    | none => cases more <;> exact refl _
    | some o => exact of_endless _
  | succ depth ih =>
    obtain ⟨more, rfl⟩ : ∃ n, more = n + 1 := ⟨more - 1, by omega⟩
    have deeper := fun object names => ih (Nat.le_of_succ_le_succ le) object names
    cases object with
    | none => exact refl _
    | some o =>
      cases names with
      | nil => exact refl _
      | cons name rest =>
        refine read fun s => ?_
        dsimp only
        split
        · exact deeper _ _
        · exact deeper _ _
        · exact deeper _ _
        · exact bind (mapM (fun other => deeper other (name :: rest)) _) fun _ => refl _
        · exact refl _

end Deepens

/-- A session whose cells are in order, on a host that has what the given one has. -/
structure RunsOn (host : Host) (s : Session) : Prop where
  host : host.Grows s.host
  celled : Celled s

namespace RunsOn

theorem alike (h : RunsOn host s) : host.Alike s.host := .of_grows h.host

theorem after {m : Analysis α} {Q : α → Prop} (h : RunsOn host s)
    (proceeds : Proceeds (Touch noLicence .all) m Q s) : RunsOn host (after m s) := by
  have steady : Steady s (Session.after m s) := .of_all (fun _ _ => .of_touch) proceeds.1
  exact ⟨h.host.trans (Remembers.of_proceeds proceeds).host, h.celled.same steady.toSameCells⟩

end RunsOn

/-- Begun in a session on the host of which `P` holds, the action comes to an end, and where it succeeds `Q`
holds of what it yields. -/
def EndsOn (host : Host) (P : Session → Prop) (m : Analysis α) (Q : α → Session → Prop) : Prop :=
  ∀ s, RunsOn host s → P s → (∀ t, m s ≠ .error .endless t) ∧ ∀ a t, m s = .ok a t → RunsOn host t ∧ Q a t

namespace EndsOn

variable {P : Session → Prop} {Q : α → Session → Prop} {m : Analysis α} {f : α → Analysis β}

theorem of_proceeds {Q : α → Prop} (ends : Ends m)
    (proceeds : ∀ s, P s → Proceeds (Touch noLicence .all) m Q s) : EndsOn host P m fun _ _ => True := by
  intro s runs holds
  refine ⟨ends s, fun a t run => ⟨?_, trivial⟩⟩
  have stays := runs.after (proceeds s holds)
  rwa [after_of_ok run] at stays

theorem of_ends {Q : α → Prop} (ends : Ends m) (roams : Roams noLicence .all m Q) :
    EndsOn host P m fun _ _ => True := of_proceeds ends fun s _ => roams s (Realm.closed_all s)

theorem pure {a : α} (h : ∀ s, P s → Q a s) : EndsOn host P (Pure.pure a) Q := by
  intro s runs holds
  refine ⟨(fun _ run => nomatch run), fun b t run => ?_⟩
  cases run
  exact ⟨runs, h s holds⟩

theorem bind {Q' : β → Session → Prop} (hm : EndsOn host P m Q) (hf : ∀ a, EndsOn host (Q a) (f a) Q') :
    EndsOn host P (m >>= f) Q' := by
  intro s runs holds
  obtain ⟨ends, yields⟩ := hm s runs holds
  cases run : m s with
  | ok a r =>
    obtain ⟨stays, right⟩ := yields a r run
    rw [bind_of_ok run]
    exact hf a r stays right
  | error e r =>
    rw [bind_of_error run]
    refine ⟨fun t same => ?_, fun _ _ same => nomatch same⟩
    cases same
    exact ends r run

theorem read {f : Session → Analysis α} (h : ∀ s, RunsOn host s → P s → EndsOn host (· = s) (f s) Q) :
    EndsOn host P (get >>= f) Q := fun s runs holds => h s runs holds s runs rfl

theorem mono {P' : Session → Prop} (h : EndsOn host P m Q) (holds : ∀ s, P' s → P s) :
    EndsOn host P' m Q := fun s runs hs => h s runs (holds s hs)

/-- What is known for good may be left out. -/
theorem always (h : EndsOn host (fun _ => True) m Q) : EndsOn host P m Q := h.mono fun _ _ => trivial

theorem mapM {items : List α} (h : ∀ a ∈ items, EndsOn host (fun _ => True) (f a) fun _ _ => True) :
    EndsOn host P (items.mapM f) fun _ _ => True := by
  induction items generalizing P with
  | nil => exact pure fun _ _ => trivial
  | cons a rest ih =>
    rw [List.mapM_cons]
    refine bind (h a List.mem_cons_self).always fun _ => ?_
    exact bind (ih fun b hb => h b (List.mem_cons_of_mem _ hb)) fun _ => pure fun _ _ => trivial

theorem aggregate (members : List Found) : EndsOn host P (Session.aggregate members) fun _ _ => True :=
  of_ends (.aggregate members) (.aggregate fun _ _ _ _ => trivial)

/-- Alternatives are asked in turn, and each lies deeper than the binding. -/
theorem valueOfWithin {object : Option ObjectId} {depth : Nat} (settles : host.Settles object [])
    (deep : ∀ o, object = some o → host.ambiguity o < depth) :
    EndsOn host P (Session.valueOfWithin depth object) fun _ _ => True := by
  induction depth generalizing object P with
  | zero =>
    cases object with
    | none => exact of_ends (.constantValue _) (.constantValue _)
    | some o => exact absurd (deep o rfl) (Nat.not_lt_zero _)
  | succ depth ih =>
    cases object with
    | none => exact of_ends (.constantValue _) (.constantValue _)
    | some o =>
      refine read fun s runs _ => ?_
      dsimp only
      rw [runs.alike.classify, runs.alike.alternatives]
      split
      · next several =>
        refine bind (mapM fun other mem => ih ?_ ?_) fun members => aggregate members
        · rintro q meets
          cases other with
          | none => cases meets
          | some p => exact settles.alternative ⟨several, mem⟩ q meets
        · rintro p rfl
          have less := Host.ambiguity_lt ⟨several, mem⟩ settles.clear
          have bound := deep o rfl
          omega
      · refine of_proceeds (Q := Realm.all.found) (.simpleValue o _) fun q same => ?_
        subst same
        exact Roams.simpleValue (Realm.closed_all q) (runs.alike.classify o)

theorem valueOf {object : Option ObjectId} (settles : host.Settles object []) :
    EndsOn host P (Session.valueOf object) fun _ _ => True := by
  refine read fun s runs _ => valueOfWithin settles fun o _ => ?_
  have few := host.ambiguity_le o
  have size := runs.host.size
  unfold objectDepth
  omega

/-- A step to an alternative takes no name away, but one to a member does. -/
theorem fromMemberWithin {object : Option ObjectId} {names : List String} {depth : Nat}
    (settles : host.Settles object names)
    (deep : ∀ o, object = some o → names.length * (host.objects.size + 2) + host.ambiguity o < depth) :
    EndsOn host P (Session.fromMemberWithin depth object names) fun _ _ => True := by
  induction depth generalizing object names P with
  | zero =>
    cases object with
    | none => exact pure fun _ _ => trivial
    | some o => exact absurd (deep o rfl) (Nat.not_lt_zero _)
  | succ depth ih =>
    cases object with
    | none => exact pure fun _ _ => trivial
    | some o =>
      have bound := deep o rfl
      cases names with
      | nil => exact valueOf settles
      | cons name rest =>
        have descends : host.Contains o → EndsOn host P
            (Session.fromMemberWithin depth (host.member? o name) rest) fun _ _ => True := by
          intro step
          refine ih (settles.member step) fun p _ => ?_
          have few := host.ambiguity_le p
          rw [List.length_cons, Nat.succ_mul] at bound
          omega
        refine read fun s runs holds => ?_
        dsimp only
        rw [runs.alike.classify, runs.alike.alternatives, runs.alike.member?]
        split
        · next kind => exact (descends (.inl kind)).mono (by rintro _ rfl; exact holds)
        · next kind => exact (descends (.inr (.inl kind))).mono (by rintro _ rfl; exact holds)
        · next kind => exact (descends (.inr (.inr kind))).mono (by rintro _ rfl; exact holds)
        · next several =>
          refine bind (mapM fun other mem => ih ?_ ?_) fun members => aggregate members
          · rintro q meets
            cases other with
            | none => cases meets
            | some p => exact settles.alternative ⟨several, mem⟩ q meets
          · rintro p rfl
            have less := Host.ambiguity_lt ⟨several, mem⟩ settles.clear
            omega
        · exact pure fun _ _ => trivial

theorem fromMember {object : Option ObjectId} {names : List String} (settles : host.Settles object names) :
    EndsOn host P (Session.fromMember object names) fun _ _ => True := by
  refine read fun s runs _ => fromMemberWithin settles fun o _ => ?_
  have few := host.ambiguity_le o
  have size := runs.host.size
  calc names.length * (host.objects.size + 2) + host.ambiguity o
      ≤ names.length * (s.host.objects.size + 2) + host.ambiguity o :=
        Nat.add_le_add_right (Nat.mul_le_mul_left _ (Nat.add_le_add_right size 2)) _
    _ < names.length * (s.host.objects.size + 2) + (s.host.objects.size + 2) := by omega
    _ = s.pathDepth names := (Nat.succ_mul _ _).symm

section Dotted

/-- A value that is found is no set of alternatives. -/
def Single (found : Found) (s : Session) : Prop := ∀ m, found = some m → (s.form m).kind ≠ .multipleMembers

theorem moduleNamed (name : String) : EndsOn host P (Session.moduleNamed name) Single := by
  intro s runs _
  refine ⟨Ends.moduleNamed name s, fun found t run => ?_⟩
  have stays := runs.after (Roams.moduleNamed name s (Realm.closed_all s))
  rw [after_of_ok run] at stays
  refine ⟨stays, ?_⟩
  rintro m rfl
  obtain ⟨cell, r, looked, reads⟩ := bind_eq_ok run
  cases cell with
  | none => cases reads
  | some cell =>
    obtain ⟨present, rfl⟩ : (r.ref cell).present = some m ∧ r = t := by
      simpa [read_run, Pure.pure, EStateM.pure] using reads
    exact stays.celled.single cell m (Roams.present_of_module present)

/-- The value of a module of the host is no set of alternatives either. -/
theorem moduleOfObject (object : ObjectId) :
    EndsOn host (fun s => s.KnowsModule object) (Session.moduleOfObject object) Single := by
  intro s runs known
  refine ⟨Ends.moduleOfObject object s, fun found t run => ?_⟩
  have stays := runs.after (Roams.moduleOfObject (Realm.closed_all s) known)
  rw [after_of_ok run] at stays
  refine ⟨stays, ?_⟩
  rintro m rfl
  obtain ⟨kept, r, made, finds, -⟩ := Roams.moduleOfObject_run object s
  rw [made] at run
  cases run
  exact (stays.celled.hosted object m finds).2.2

theorem importObject (name : String) :
    EndsOn host P (Session.importObject name) fun found s => ∀ object, found = some object → s.KnowsModule object := by
  intro s runs _
  refine ⟨Ends.of_total (.modifyGet _) s, fun found t run => ?_⟩
  have stays := runs.after (Roams.importObject name s (Realm.closed_all s))
  rw [after_of_ok run] at stays
  cases run
  exact ⟨stays, fun object offered => .of_imported offered⟩

/-- What is no set of alternatives is asked once for a child. -/
theorem childModule (m : ValueId) (name : String) :
    EndsOn host (Single (some m)) (Session.childModule m name) Single := by
  refine read fun s _ single => read fun t _ same => ?_
  subst same
  dsimp only
  split
  · next members several =>
    refine absurd ?_ (single m rfl)
    rw [form, several]
    rfl
  · exact moduleNamed _
  · exact moduleNamed _
  · exact pure fun _ _ m none => by cases none

theorem fromHostModule (clear : ∀ o, ¬ host.Circular o) (object : ObjectId) (name : String)
    (rest : List String) : EndsOn host P (Session.fromHostModule (some object) (name :: rest)) fun _ _ => True := by
  refine read fun s runs _ => ?_
  rw [runs.alike.member?]
  exact fromMember fun q _ => clear q

theorem fromModule (clear : ∀ o, ¬ host.Circular o) (found : Found) (names : List String) :
    EndsOn host (Single found) (Session.fromModule found names) fun _ _ => True := by
  induction names generalizing found with
  | nil => cases found <;> exact pure fun _ _ => trivial
  | cons name rest ih =>
    cases found with
    | none => exact pure fun _ _ => trivial
    | some m =>
      refine read fun s _ single => ?_
      dsimp only
      split
      · exact pure fun _ _ => trivial
      · refine bind ((childModule m name).mono (by rintro _ rfl; exact single)) fun child => ?_
        cases child with
        | some other => exact ih (some other)
        | none =>
          cases (s.value m).form with
          | builtinModule object => exact fromHostModule clear object name rest
          | _ => exact ih none

theorem topModule (name : String) : EndsOn host P (Session.topModule name) Single := by
  refine bind (moduleNamed name) fun found => ?_
  cases found with
  | some m => exact pure fun _ single => single
  | none =>
    refine bind (importObject name) fun object => ?_
    cases object with
    | none => exact pure fun _ _ => nofun
    | some object => exact (moduleOfObject object).mono fun _ known => known object rfl

theorem importDotted (clear : ∀ o, ¬ host.Circular o) (name : String) (bottom : Bool) :
    EndsOn host P (Session.importDotted name bottom) fun _ _ => True := by
  unfold Session.importDotted
  split
  · exact pure fun _ _ => trivial
  · split
    · exact pure fun _ _ => trivial
    · refine bind (topModule _) fun top => ?_
      split
      · exact pure fun _ _ => trivial
      · exact pure fun _ _ => trivial
      · exact bind (fromModule clear _ _) fun last => pure fun _ _ => trivial

end Dotted

end EndsOn

/-- Begun in a session on the host, the action yields nothing. -/
def Fruitless (host : Host) (m : Analysis α) : Prop := ∀ s, RunsOn host s → ∀ a t, m s ≠ .ok a t

namespace Fruitless

variable {m : Analysis α} {f : α → Analysis β}

theorem bind (h : Fruitless host m) : Fruitless host (m >>= f) := by
  intro s runs b t ends
  obtain ⟨a, r, first, -⟩ := bind_eq_ok ends
  exact h s runs a r first

/-- All have to yield something for the list. -/
theorem mapM {items : List α} {a : α} (roams : ∀ b, Roams noLicence .all (f b) fun _ => True) (mem : a ∈ items)
    (h : Fruitless host (f a)) : Fruitless host (items.mapM f) := by
  induction items with
  | nil => cases mem
  | cons b rest ih =>
    intro s runs results t ends
    rw [List.mapM_cons] at ends
    obtain ⟨first, r, run, ends⟩ := bind_eq_ok ends
    obtain ⟨more, q, others, -⟩ := bind_eq_ok ends
    rcases List.mem_cons.1 mem with rfl | mem
    · exact h s runs first r run
    · have stays := runs.after (roams b s (Realm.closed_all s))
      rw [after_of_ok run] at stays
      exact ih mem r stays more q others

theorem valueOfWithin {object : Option ObjectId} (circles : ¬ host.Settles object []) (depth : Nat) :
    Fruitless host (Session.valueOfWithin depth object) := by
  induction depth generalizing object with
  | zero =>
    cases object with
    | none => exact absurd (fun q meets => nomatch meets) circles
    | some o => rintro s _ a t ⟨⟩
  | succ depth ih =>
    cases object with
    | none => exact absurd (fun q meets => nomatch meets) circles
    | some o =>
      rcases Host.next_of_not_settles circles with ⟨p, step, more⟩ | ⟨name, rest, names, -⟩
      · intro s runs found t ends
        simp only [Session.valueOfWithin, read_run, runs.alike.classify, runs.alike.alternatives, step.1] at ends
        have stuck : Fruitless host ((host.alternatives o).mapM (Session.valueOfWithin depth)) :=
          mapM (fun other => (Roams.valueOfWithin depth other).mono fun _ _ => trivial) step.2 (ih more)
        exact stuck.bind s runs found t ends
      · cases names

theorem fromMemberWithin {object : Option ObjectId} {names : List String} (circles : ¬ host.Settles object names)
    (depth : Nat) : Fruitless host (Session.fromMemberWithin depth object names) := by
  induction depth generalizing object names with
  | zero =>
    cases object with
    | none => exact absurd (fun q meets => nomatch meets) circles
    | some o => rintro s _ a t ⟨⟩
  | succ depth ih =>
    cases object with
    | none => exact absurd (fun q meets => nomatch meets) circles
    | some o =>
      cases names with
      | nil =>
        intro s
        exact valueOfWithin circles s.objectDepth s
      | cons name rest =>
        intro s runs found t ends
        simp only [Session.fromMemberWithin, read_run, runs.alike.classify, runs.alike.alternatives,
          runs.alike.member?] at ends
        rcases Host.next_of_not_settles circles with ⟨p, step, more⟩ | ⟨_, _, ⟨⟩, step, more⟩
        · simp only [step.1] at ends
          have stuck : Fruitless host ((host.alternatives o).mapM fun other =>
              Session.fromMemberWithin depth other (name :: rest)) :=
            mapM (fun other => (Roams.fromMemberWithin depth other _).mono fun _ _ => trivial) step.2 (ih more)
          exact stuck.bind s runs found t ends
        · rcases step with kind | kind | kind
          all_goals
            simp only [kind] at ends
            exact ih more s runs found t ends

end Fruitless

/-- So many steps are enough: with more the same comes out, and the action comes to an end. -/
def Suffices (enough : Nat) (m : Nat → Analysis Found) (s : Session) : Prop :=
  ∀ depth, enough ≤ depth → m depth s = m enough s ∧ ∀ t, m depth s ≠ .error .endless t

private theorem suffices_of_ends {enough : Nat} {m : Nat → Analysis Found} (ends : ∀ t, m enough s ≠ .error .endless t)
    (deepens : ∀ depth, enough ≤ depth → Deepens (m enough) (m depth)) : Suffices enough m s := by
  intro depth le
  have same := deepens depth le s ends
  refine ⟨same, fun t => ?_⟩
  rw [same]
  exact ends t

/-- The value of an object and what names lead to from it are found in finitely many steps, a number that the
sizes of the host and of the path give, exactly when no ambiguous binding that is come across is among its own
alternatives; where one is, no number of steps is enough. Members may lead round in circles. Dotted names
resolve, or fail to, on every host without such a binding. -/
theorem resolution_ends {options : Options} {host : Host} {hostRequests : List Request} {first : Session}
    (made : create options host hostRequests = .ok first) (ops : List Operation) :
    let s := afterAll ops first
    (∀ object, s.host.Settles object [] →
      Suffices s.objectDepth (fun depth => valueOfWithin depth object) s) ∧
    (∀ object names, s.host.Settles object names →
      Suffices (s.pathDepth names) (fun depth => fromMemberWithin depth object names) s) ∧
    (∀ object, ¬ s.host.Settles object [] → ∀ depth found t, valueOfWithin depth object s ≠ .ok found t) ∧
    (∀ object names, ¬ s.host.Settles object names →
      ∀ depth found t, fromMemberWithin depth object names s ≠ .ok found t) ∧
    ((∀ o, ¬ s.host.Circular o) → ∀ name bottom t, importDotted name bottom s ≠ .error .endless t) := by
  intro s
  have runs : RunsOn s.host s := ⟨.of_eq rfl, (Turnover.afterAll (celled_create made) ops).celled⟩
  refine ⟨fun object settles => ?_, fun object names settles => ?_, fun object circles depth => ?_,
    fun object names circles depth => ?_, fun clear name bottom => ?_⟩
  · refine suffices_of_ends ?_ fun depth le => .valueOfWithin le object
    exact ((EndsOn.valueOf (P := fun _ => True) settles) s runs trivial).1
  · refine suffices_of_ends ?_ fun depth le => .fromMemberWithin le object names
    exact ((EndsOn.fromMember (P := fun _ => True) settles) s runs trivial).1
  · exact Fruitless.valueOfWithin circles depth s runs
  · exact Fruitless.fromMemberWithin circles depth s runs
  · exact ((EndsOn.importDotted (P := fun _ => True) clear name bottom) s runs trivial).1

/-- A container that is a member of itself, with a binding that stands for a number or for nothing. -/
def loopingHost : Host where
  objects := #[⟨.primitive (.int 1), .primitive⟩, ⟨.multiple [some ⟨0⟩, none], .multipleMembers⟩,
    ⟨.container ⟨[("again", some ⟨2⟩), ("value", some ⟨1⟩)]⟩, .memberContainer⟩]

def looping : Session := after load (blank {} loopingHost [])

/-- The alternatives of its only binding have none. -/
theorem settles_looping (object : Option ObjectId) (names : List String) : looping.host.Settles object names := by
  have alike : loopingHost.Alike looping.host := .of_grows (Remembers.load (blank {} loopingHost [])).host
  have only : ∀ o p, looping.host.Alternative o p → o = ⟨1⟩ ∧ p = ⟨0⟩ := by
    rintro o p ⟨several, mem⟩
    rw [alike.classify] at several
    rw [alike.alternatives] at mem
    have there : o.index < 3 := Host.index_lt_of_several several
    obtain ⟨_ | _ | _ | i⟩ := o
    · cases several
    · exact ⟨rfl, by simpa [loopingHost, Host.alternatives, Host.object] using mem⟩
    · cases several
    · exact absurd there (by simp only; omega)
  rintro q - circular
  obtain ⟨p, step, -⟩ := Relation.TransGen.head'_iff.1 circular
  obtain ⟨o, -, back⟩ := Relation.TransGen.tail'_iff.1 circular
  obtain ⟨rfl, -⟩ := only q p step
  cases (only o _ back).2

/-- A path may go round through the container before it leads to the binding. -/
theorem resolution_ends_looping :
    let names := ["again", "again", "value"]
    ∀ depth, looping.pathDepth names ≤ depth →
      yield? (fromMemberWithin depth (some ⟨2⟩) names) looping = some (some ⟨2⟩) := by
  intro names depth le
  have made : create {} loopingHost [] = .ok looping := create_unasked _ _
  have finds : yield? (fromMemberWithin (looping.pathDepth names) (some ⟨2⟩) names) looping = some (some ⟨2⟩) := by
    decide +kernel
  have same : fromMemberWithin depth (some ⟨2⟩) names looping =
      fromMemberWithin (looping.pathDepth names) (some ⟨2⟩) names looping :=
    ((resolution_ends made []).2.1 (some ⟨2⟩) names (settles_looping _ _) depth le).1
  rw [yield?, same]
  exact finds

def circularHost : Host := { objects := #[⟨.multiple [some ⟨0⟩], .multipleMembers⟩] }

/-- The value of such a binding is asked for without end. -/
theorem circular_binding_is_endless :
    ¬ ∀ object, ∃ depth, ∀ t, valueOfWithin depth object (after load (blank {} circularHost [])) ≠ .error .endless t := by
  let s := after load (blank {} circularHost [])
  have alike : circularHost.Alike s.host := .of_grows (Remembers.load (blank {} circularHost [])).host
  have endless : ∀ depth, valueOfWithin depth (some ⟨0⟩) s = .error .endless s := by
    intro depth
    induction depth with
    | zero => rfl
    | succ depth ih =>
      have several : s.host.classify ⟨0⟩ = .multipleMembers := (alike.classify _).trans rfl
      have alternatives : s.host.alternatives ⟨0⟩ = [some ⟨0⟩] := (alike.alternatives _).trans rfl
      simp only [valueOfWithin, read_run, several, alternatives, List.mapM_cons]
      exact bind_of_error (bind_of_error ih)
  intro claimed
  obtain ⟨depth, ends⟩ := claimed (some ⟨0⟩)
  exact ends s (endless depth)

end Typeflow.Session
