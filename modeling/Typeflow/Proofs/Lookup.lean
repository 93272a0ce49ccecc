import Typeflow.Proofs.Lookup.Circles
import Typeflow.Proofs.Lookup.Ends

/-! When lookups of members come to an end. A class that is being searched is not searched again, but other values
keep no such mark. -/
namespace Typeflow.Session

variable {α : Type}

/-- From a depth on the same comes out, and it is not that the depth is too small. -/
def EndsBy (enough : Nat) (m : Nat → Analysis α) (s : Session) : Prop :=
  ∀ depth, enough ≤ depth → m depth s = m enough s ∧ ∀ t, m depth s ≠ .error .endless t

/-- The depth of a session is enough for every lookup that ends in it. -/
def lookupDepth (s : Session) : Nat := (s.values.size + 2) * (s.values.size + 2)

/-- The scope of a class is not that of a module. -/
theorem Coherent.inner {s : Session} (h : Coherent s) {v : ValueId} {c : UserClass} (hv : s.form v = .userClass c) :
    s.Inner c.scope := by
  intro m p hm same
  have cls := (h.owned v c.scope (by rw [hv]; rfl)).2
  have module := (h.owned m p.scope (by rw [hm]; rfl)).2
  rw [same, cls] at module
  cases module
  rw [hv] at hm
  cases hm

theorem Lacks.ownTypes {s : Session} {c : UserClass} {name : String} (h : s.Lacks c.scope name) :
    (s.ownTypes c name).isEmpty = true := by
  unfold Session.ownTypes
  cases hf : s.findName? c.scope name with
  | some x => exact h x hf
  | none => rfl

private theorem ownTypes_of_nameIn {s t : Session} {c : UserClass} {name : String} {x : VarId}
    (run : nameIn c.scope name s = .ok x t) : t.types x = s.ownTypes c name := by
  unfold ownTypes
  cases hf : s.findName? c.scope name with
  | some y =>
    rw [nameIn_of_some hf] at run
    cases run
    rfl
  | none =>
    have peeks := Peeks.nameIn c.scope name s
    rw [nameIn_of_none hf] at run
    rw [after_of_ok (nameIn_of_none hf)] at peeks
    cases run
    exact (peeks.types _).trans (Fills.types_of_le (Nat.le_refl _))

/-- A class yields the types that it has itself. If it lists none, its bases are searched, unless they are being
searched. -/
theorem memberOf_class {s : Session} {v : ValueId} {c : UserClass} (hv : s.form v = .userClass c) (ask : Ask)
    (name : String) (site : Site) :
    ∃ r t, Reads s r ∧ Reads s t ∧ memberOf ask v name site s =
      if (s.ownTypes c name).isEmpty then
        if c.resolving then .ok .empty t
        else whileResolving v (ask.all (s.types c.bases) (.member name) site) t
      else .ok (s.ownTypes c name) r := by
  obtain ⟨x, named⟩ := total_nameIn c.scope name s
  let read := after (addReader x site.unit) (after (nameIn c.scope name) s)
  have made : Reads s read := .tail (.single (.inl ⟨c.scope, name, rfl⟩)) (.inr ⟨x, site.unit, rfl⟩)
  have own : readAt x site (after (nameIn c.scope name) s) = .ok (s.ownTypes c name) read := by
    rw [← ownTypes_of_nameIn named, ← (Peeks.addReader x site.unit _).types]
    rfl
  let asked := after (addReader c.bases site.unit) read
  have whole : Reads s asked := made.tail (.inr ⟨c.bases, site.unit, rfl⟩)
  have peeks : Peeks s asked := .of_reads whole
  have bases : readAt c.bases site read = .ok (s.types c.bases) asked := by
    rw [← peeks.types]
    rfl
  have mark : asked.isResolving v = c.resolving := by
    rw [isResolving_eq, peeks.mark, hv, Form.marked]
  refine ⟨read, asked, made, whole, ?_⟩
  rw [memberOf, read_run, hv]
  dsimp only
  rw [userClassMember, bind_of_ok named, bind_of_ok own]
  cases none : (s.ownTypes c name).isEmpty with
  | false => rfl
  | true =>
    rw [if_neg (by simp), bind_of_ok bases, read_run, mark]
    cases c.resolving <;> rfl

/-- A class that is being searched yields what it has itself, and its bases are not asked. -/
theorem member_of_marked {s : Session} {v : ValueId} {c : UserClass} (hv : s.form v = .userClass c)
    (marked : c.resolving = true) (name : String) (site : Site) (depth : Nat) :
    ∃ values t, answerWithin (depth + 1) v (.member name) site s = .ok values t ∧
      values.items = (s.ownTypes c name).items := by
  obtain ⟨r, t, -, -, rule⟩ := memberOf_class hv (answerWithin depth) name site
  rw [marked] at rule
  cases none : (s.ownTypes c name).isEmpty with
  | false => exact ⟨_, r, by rw [none] at rule; exact rule, rfl⟩
  | true => exact ⟨.empty, t, by rw [none] at rule; exact rule, (List.isEmpty_iff.1 none).symm⟩

/-- Values that lead to one another only downwards do not lead round in circles. -/
theorem unwinds_of_rank {s : Session} {name : String} {v : ValueId} (known : List ValueId) (rank : ValueId → Nat)
    (mem : v ∈ known) (closed : ∀ a ∈ known, ∀ b ∈ s.sought name a, b ∈ known)
    (down : ∀ a ∈ known, ∀ b ∈ s.passed a, rank b < rank a) (there : ∀ a ∈ known, a.index < s.values.size) :
    s.Grounded name v ∧ s.Unwinds name v := by
  have reached : ∀ w, Relation.ReflTransGen (s.Seeks name) v w → w ∈ known := by
    intro w path
    induction path with
    | refl => exact mem
    | tail _ step ih => exact closed _ ih _ (seeks_iff.1 step)
  refine ⟨fun w path => there w (reached w path), fun w path circular => ?_⟩
  have falls : ∀ x, Relation.TransGen s.Passes w x → x ∈ known ∧ rank x < rank w := by
    intro x steps
    induction steps with
    | single step =>
      exact ⟨closed _ (reached w path) _ (seeks_iff.1 (.passes step)), down _ (reached w path) _ (passes_iff.1 step)⟩
    | tail _ step ih =>
      exact ⟨closed _ ih.1 _ (seeks_iff.1 (.passes step)), Nat.lt_trans (down _ ih.1 _ (passes_iff.1 step)) ih.2⟩
  exact Nat.lt_irrefl _ (falls w circular).2

/-- A value that leads nowhere does not lead round in circles. -/
theorem unwinds_of_alone {s : Session} {v : ValueId} (there : v.index < s.values.size) (alone : s.passed v = [])
    (bases : ∀ x ∈ (s.form v).record? .bases, (s.types x).items = []) (name : String) :
    s.Grounded name v ∧ s.Unwinds name v := by
  have none : s.sought name v = [] := by
    unfold sought
    split
    · next c hv =>
      rw [bases c.bases (by rw [hv]; rfl), ite_self]
    · exact alone
  exact unwinds_of_rank [v] ValueId.index (List.mem_singleton_self v) (by simp [none]) (by simp [alone])
    (by simpa using there)

/-- A host without objects has none that stands for itself. -/
theorem not_circular_of_size {host : Host} (none : host.objects.size = 0) (o : ObjectId) : ¬ host.Circular o := by
  intro circular
  obtain ⟨p, step, -⟩ := Relation.TransGen.head'_iff.1 circular
  have there := Host.index_lt_of_several step.1
  omega

section History

variable {options : Options} {host : Host} {hostRequests : List Request} {first : Session}

private theorem sane_of_fitting (made : create options host hostRequests = .ok first) {ops : List Operation}
    (fits : Fitting ops first) : Sane (afterAll ops first) :=
  ((sane_blank options host hostRequests).moves (moves_create made)).moves (moves_of_fitting ops
    ((sane_blank options host hostRequests).moves (moves_create made)) fits)

/-- A lookup comes to an end within the depth of the session if it comes across no value that leads back to itself past
all classes. -/
theorem member_ends (made : create options host hostRequests = .ok first) {ops : List Operation}
    (fits : Fitting ops first) {s : Session} (reached : s = afterAll ops first) (clear : ∀ o, ¬ s.host.Circular o)
    {v : ValueId} {name : String} (grounded : s.Grounded name v) (unwinds : s.Unwinds name v) (site : Site) :
    EndsBy s.lookupDepth (fun depth => answerWithin depth v (.member name) site) s := by
  subst reached
  intro depth le
  have runs : RunsOn (afterAll ops first).host (afterAll ops first) :=
    ⟨.of_eq rfl, (Turnover.afterAll (celled_create made) ops).celled⟩
  have answered : Answered (afterAll ops first).host (afterAll ops first) ∅ (afterAll ops first).lookupDepth v name site :=
    .member clear (fun v c hv => (sane_of_fitting made fits).coherent.inner hv) grounded unwinds
      ((afterAll ops first).searchDepth_le name ∅ v)
  have ends := (answered _ runs (.begin _)).1
  have same := Deepens.answerWithin le v (.member name) site _ ends
  exact ⟨same, fun t endless => ends t (same.symm.trans endless)⟩

end History

/-- After every history, a lookup of a member comes to an end, and does so within the depth of the session, if no
value that it comes across leads back to itself past all classes; circles that lead through classes do no harm.
Where a value leads back to itself like that, no depth is enough. In any session, a class that is being searched
yields only what it has itself, and a lookup leaves every class marked or not as it was, whether it succeeds or
fails. -/
theorem lookup_ends {options : Options} {host : Host} {hostRequests : List Request} {first : Session}
    (made : create options host hostRequests = .ok first) {ops : List Operation} (fits : Fitting ops first) :
    let s := afterAll ops first
    (∀ v name site, (∀ o, ¬ s.host.Circular o) → s.Grounded name v → s.Unwinds name v →
      EndsBy s.lookupDepth (fun depth => answerWithin depth v (.member name) site) s) ∧
    (∀ v name site, ¬ s.Unwinds name v →
      ∀ depth values t, answerWithin depth v (.member name) site s ≠ .ok values t) ∧
    (∀ (t : Session) v c, t.form v = .userClass c → c.resolving = true → ∀ name site depth,
      ∃ values q, answerWithin (depth + 1) v (.member name) site t = .ok values q ∧
        values.items = (t.ownTypes c name).items) ∧
    (∀ (t : Session) depth v name site w,
      ((after (answerWithin depth v (.member name) site) t).form w).marked = (t.form w).marked) := by
  intro s
  have inner : ∀ v c, s.form v = .userClass c → s.Inner c.scope :=
    fun v c hv => (sane_of_fitting made fits).coherent.inner hv
  exact ⟨fun v name site clear grounded unwinds => member_ends made fits rfl clear grounded unwinds site,
    fun v name site circles depth values t =>
      Barren.member inner (strays_of_not_unwinds circles) depth site s (.begin s) values t,
    fun t v c hv marked name site depth => member_of_marked hv marked name site depth,
    fun t depth v name site w => (Looks.member depth v name site t).mark w⟩

/-- A class that has its own instance among its bases. -/
def ownInstance : List Operation :=
  [.addModule "m" "/m.py",
    .replaceTree ⟨0⟩ (some ⟨{}, [.classDef {} "C" [.name {} "x"] [.pass {}],
      .assign {} [.name {} "x"] (.call {} (.name {} "C") [] [])]⟩),
    .analyzeEntry ⟨0⟩ .never]

/-- The way from the instance leads through the class back to the instance, where the class is known to be searched. -/
theorem lookup_ends_past_class :
    let s := afterAll ownInstance bare
    let site : Site := ⟨default, ⟨0⟩⟩
    s.sought "f" ⟨1⟩ = [⟨2⟩] ∧ s.sought "f" ⟨2⟩ = [⟨1⟩] ∧
      ∀ depth, 25 ≤ depth → yield? (answerWithin depth ⟨2⟩ (.member "f") site) s = some .empty := by
  intro s site
  obtain ⟨fits, size, objects, fromClass, fromInstance, passed, passes, finds⟩ :
      Fitting ownInstance bare ∧ s.values.size = 3 ∧ s.host.objects.size = 0 ∧ s.sought "f" ⟨1⟩ = [⟨2⟩] ∧
      s.sought "f" ⟨2⟩ = [⟨1⟩] ∧ s.passed ⟨1⟩ = [] ∧ s.passed ⟨2⟩ = [⟨1⟩] ∧
      yield? (answerWithin 25 ⟨2⟩ (.member "f") site) s = some .empty := by
    decide +kernel
  refine ⟨fromClass, fromInstance, fun depth le => ?_⟩
  have clear : ∀ o, ¬ s.host.Circular o := not_circular_of_size objects
  obtain ⟨grounded, unwinds⟩ : s.Grounded "f" ⟨2⟩ ∧ s.Unwinds "f" ⟨2⟩ := by
    refine unwinds_of_rank [⟨1⟩, ⟨2⟩] ValueId.index (by simp) ?_ ?_ ?_
    · simp [fromClass, fromInstance]
    · simp [passed, passes]
    · simp [size]
  have enough : s.lookupDepth = 25 := by
    rw [lookupDepth, size]
  have ends := (lookup_ends create_bare fits).1 ⟨2⟩ "f" site clear grounded unwinds
  have same : answerWithin depth ⟨2⟩ (.member "f") site s = answerWithin 25 ⟨2⟩ (.member "f") site s :=
    enough ▸ (ends depth (enough.trans_le le)).1
  have also : yield? (answerWithin depth ⟨2⟩ (.member "f") site) s =
      yield? (answerWithin 25 ⟨2⟩ (.member "f") site) s := by
    simp only [yield?, same]
  exact also.trans finds

/-- A value stands alone among the bases of the class whose bases it searches. -/
theorem endless_of_super {s : Session} {v cls : ValueId} {instances : ValueSet} {c : UserClass}
    (hv : s.form v = .super cls instances) (of : s.form cls = .userClass c) (bases : (s.types c.bases).items = [v])
    (name : String) (site : Site) (depth : Nat) {t : Session} (links : Links s t) :
    ∃ r, answerWithin depth v (.member name) site t = .error .endless r := by
  induction depth generalizing t with
  | zero => exact ⟨t, rfl⟩
  | succ depth ih =>
    obtain ⟨on, same⟩ := links.userClass of
    let read := after (addReader c.bases site.unit) t
    have asks : readAt c.bases site t = .ok (read.types c.bases) read := rfl
    have all : (read.types c.bases).items = [v] := by
      rw [(Peeks.addReader c.bases site.unit t).types, links.types, bases]
    obtain ⟨r, endless⟩ := ih (links.trans (Peeks.addReader c.bases site.unit t).toLinks)
    refine ⟨r, ?_⟩
    show memberOf (answerWithin depth) v name site t = _
    rw [memberOf, read_run, links.keeps hv nofun nofun nofun]
    dsimp only
    rw [superMember, read_run, same]
    dsimp only
    rw [bind_of_ok asks, all]
    exact bind_of_error (bind_of_error (bind_of_error endless))

/-- A class that has the search through its own bases among its bases. -/
def ownSuper : List Operation :=
  [.addModule "m" "/m.py",
    .replaceTree ⟨0⟩ (some ⟨{}, [.classDef {} "C" [.name {} "s"] [.pass {}],
      .assign {} [.name {} "s"] (.call {} (.name {} "super") [.name {} "C"] [""])]⟩),
    .analyzeEntry ⟨0⟩ .never]

/-- A host that has nothing but the function that makes such a search. -/
def superHost : Host where
  objects := #[⟨.function "super" "builtins" [], .function⟩, ⟨.module "builtins" ⟨[("super", some ⟨0⟩)]⟩, .module⟩]
  importable := ⟨[("builtins", ⟨1⟩)]⟩
  moduleNames := ["builtins"]

/-- The mark of the class does not stop the search, which goes past the class. -/
theorem own_super_is_endless :
    ¬ ∀ v name site, ∃ depth, ∀ t,
      answerWithin depth v (.member name) site (afterAll ownSuper (after load (blank {} superHost []))) ≠
        .error .endless t := by
  let s := afterAll ownSuper (after load (blank {} superHost []))
  let site : Site := ⟨default, ⟨0⟩⟩
  obtain ⟨kind, clsKind, passed, sought⟩ : (s.form ⟨5⟩).kind = .super ∧ (s.form ⟨1⟩).kind = .userClass ∧
      s.passed ⟨5⟩ = [⟨5⟩] ∧ s.sought "x" ⟨1⟩ = [⟨5⟩] := by
    decide +kernel
  obtain ⟨cls, instances, hv⟩ : ∃ cls instances, s.form ⟨5⟩ = .super cls instances := by
    cases hv : s.form ⟨5⟩ with
    | super cls instances => exact ⟨cls, instances, rfl⟩
    | _ =>
      rw [hv] at kind
      cases kind
  obtain ⟨c, of, bases⟩ : ∃ c, s.form cls = .userClass c ∧ (s.types c.bases).items = [⟨5⟩] := by
    cases of : s.form cls with
    | userClass c => exact ⟨c, rfl, by simpa [Session.passed, hv, of] using passed⟩
    | _ => simp [Session.passed, hv, of] at passed
  obtain ⟨d, hd, idle, lacks, only⟩ : ∃ d, s.form ⟨1⟩ = .userClass d ∧ d.resolving = false ∧ s.Lacks d.scope "x" ∧
      (s.types d.bases).items = [⟨5⟩] := by
    cases hd : s.form ⟨1⟩ with
    | userClass d =>
      simp only [Session.sought, hd] at sought
      split at sought
      · next open_ => exact ⟨d, rfl, open_.1, open_.2, sought⟩
      · cases sought
    | _ =>
      rw [hd] at clsKind
      cases clsKind
  intro claimed
  obtain ⟨depth, ends⟩ := claimed ⟨1⟩ "x" site
  cases depth with
  | zero => exact ends s rfl
  | succ depth =>
    obtain ⟨r, t, -, reads, rule⟩ := memberOf_class hd (answerWithin depth) "x" site
    rw [lacks.ownTypes, if_pos rfl, idle, if_neg Bool.false_ne_true, whileResolving_run, Ask.all, only] at rule
    obtain ⟨q, endless⟩ := endless_of_super hv of bases "x" site depth
      ((Peeks.of_reads reads).toLinks.trans (links_setResolving ⟨1⟩ true t))
    have search : ValueSet.joinM [⟨5⟩] (fun v => answerWithin depth v (.member "x") site)
        (after (setResolving ⟨1⟩ true) t) = .error .endless q := bind_of_error (bind_of_error endless)
    rw [search] at rule
    exact ends _ rule

end Typeflow.Session
