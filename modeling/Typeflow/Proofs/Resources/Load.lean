import Typeflow.Proofs.Resources.Reach

/-! What a call of the loader binds. Of the texts that its path can be, the loader takes the first that names a
resource: the module of the caller depends on this resource from then on, and every value that is given has the
instances of all types that the resource declares. The texts after it are not looked at. -/
namespace Typeflow.Session

variable {s m : Session} {dir : String} {path self : ValueSet} {e : EntryId} {r : ResourceId} {site : Site}
  {a : Arguments}

/-- The resource that a value names by its text, taken relative to a directory. -/
def namedBy? (s : Session) (dir : String) (v : ValueId) : Option ResourceId := do
  s.resourcesByPath.find? (Text.joinPath dir (← (s.value v).text?))

/-- The value is the oldest of a set that names a resource. -/
structure NamesFirst (s : Session) (dir : String) (path : ValueSet) (v : ValueId) (r : ResourceId) : Prop where
  mem : v ∈ path.items
  names : s.namedBy? dir v = some r
  first : ∀ w ∈ path.items, w.index < v.index → s.namedBy? dir w = none

private theorem resourceNamed?_eq_none : s.resourceNamed? dir path = none ↔ ∀ v ∈ path.items, s.namedBy? dir v = none :=
  List.findSome?_eq_none_iff

/-- Values are looked at in the order in which they were made. -/
theorem namesFirst_of_resourceNamed? (h : s.resourceNamed? dir path = some r) :
    ∃ v, s.NamesFirst dir path v r := by
  obtain ⟨before, v, after, items, names, none⟩ := List.findSome?_eq_some_iff.1 h
  have increasing := ValueSet.items_increasing path
  rw [items] at increasing
  refine ⟨v, by rw [items]; simp, names, fun w mem older => ?_⟩
  rw [items] at mem
  rcases List.mem_append.1 mem with earlier | later
  · exact none w earlier
  · have notOlder : v.index ≤ w.index := by
      rcases List.mem_cons.1 later with rfl | later
      · exact Nat.le_refl _
      · exact Nat.le_of_lt ((List.pairwise_cons.1 (List.pairwise_append.1 increasing).2.1).1 w later)
    omega

/-- Without a resource there is no opinion, and nothing changes. -/
theorem loadComponentAt_unnamed (sets : a.sets = [self, path]) (entry : (s.unit site.unit).entry = some e)
    (unnamed : s.resourceNamed? (Text.parentPath (s.entry e).path) path = none) :
    loadComponentAt a site s = .ok none s := by
  simp only [loadComponentAt, read_run, sets, entry, unnamed]
  rfl

/-- The module depends on the resource if there is one, every other resource is as before, and every member of
the values that is named as an object of a known type holds the instance of this type. -/
structure Honours (s t : Session) (e : EntryId) (r : ResourceId) (values : ValueSet) : Prop where
  depends : e ∈ (t.resource r).dependents
  others : ∀ other, other ≠ r → t.resource other = s.resource other
  declared : ∀ v ∈ values.items, ∀ name place type, s.memberPlace? v name = some place →
    (name, some type) ∈ (s.resource r).objects.toList → t.TypeIn place type

/-- The first unit that waits is run. -/
theorem ran_of_pop {c : Cancellation} {processed fuel : Nat} {job : Job} {queue : WorkQueue}
    (popped : s.queue.pop? = some (job, queue)) (alive : s.isAlive job.unit = true) :
    .ran (turnOf job.unit (s.begun queue job.unit)) ∈ drainEvents c false processed (fuel + 1) s := by
  simp [drainEvents, popped, alive]

/-- At a moment of a turn names have their records, and no key of a memo table is without its value. -/
theorem receptive_in_turn {options : Options} {host : Host} {hostRequests : List Request} {first : Session}
    (made : create options host hostRequests = .ok first) {ops : List Operation} {o : Operation}
    (fits : Fitting (ops ++ [o]) first) {turn : Turn} (ran : .ran turn ∈ o.events (afterAll ops first))
    (up : Touches (licence turn.unit (turn.before.unit turn.unit).body) .all turn.before m) :
    AtRest m ∧ ∀ place, m.Receptive place := by
  obtain ⟨fitting, ⟨fit, -⟩⟩ := (fitting_append ops [o] first).1 fits
  have start : Sane first := (sane_blank options host hostRequests).moves (moves_create made)
  have sane : Sane (afterAll ops first) := start.moves (moves_of_fitting ops start fitting)
  have rest : AtRest m := by
    have before := Remembers.sustains.covers.since ran
    exact (((AtRest.create made).afterAll ops).remembers (.of_all (fun _ _ => id) before.1)).remembers
      (.of_all (fun _ _ => .of_touch) up)
  obtain ⟨pre, post, events⟩ := List.append_of_mem ran
  obtain ⟨q, _, earlier, now, -⟩ := (o.moves sane fit).split events
  obtain ⟨job, queue, popped, alive, rfl, -⟩ := now.of_ran
  have moment : Moment (afterAll ops first) m := .within earlier popped alive (steps_of_touches up)
  refine ⟨rest, fun place => ?_⟩
  cases place with
  | name => exact supplied_of_history made fitting moment
  | part => exact rest.attributes

/-- What the loader does about the resource that it takes. -/
theorem honours_setAllDeclared (rest : AtRest s) (receptive : ∀ place, s.Receptive place)
    (there : r.index < s.resources.size) (e : EntryId) (self : ValueSet) (site : Site) :
    Honours s (after (setAllDeclared (s.resource r).objects self site) (s.withDependent e r)) e r self := by
  let noted := s.withDependent e r
  have known : ∀ name t, (name, some t) ∈ (s.resource r).objects.toList → noted.KnowsType t :=
    fun _ _ declares => (endures_withDependent s e r).knowsType (.of_resource declares)
  have sets : Accrues noted (after (setAllDeclared (s.resource r).objects self site) noted) :=
    .setEachDeclared self known site
  have same : ∀ q, (after (setAllDeclared (s.resource r).objects self site) noted).resource q = noted.resource q :=
    fun q => by rw [resource, sets.resources]; rfl
  have still : ∀ place, noted.Receptive place := by
    intro place
    cases place with
    | name c name =>
      obtain ⟨sane, supplied⟩ := receptive (.name c name)
      have quiet : Bookkeeping s noted := by constructor <;> rfl
      exact ⟨sane.bookkeeping quiet, (Supplies.of_bookkeeping quiet).supplied supplied⟩
    | part v part => exact receptive (.part v part)
  constructor
  case depends =>
    rw [same]
    exact mem_withDependent there
  case others =>
    intro other differs
    rw [same]
    exact resource_withDependent differs
  case declared =>
    intro v mem name place type stands declares
    have remembers : Remembers s noted := .of_same rfl rfl (.of_eq rfl) rfl rfl
    exact typeIn_setEachDeclared (rest.remembers remembers) mem stands (still place) known declares site

/-- Whenever a unit of a module calls the loader with values and with what the path can be, either no text of the
path names a resource and the loader has no opinion, or the loader does all there is to do about the first
resource that one names, and yields the values. -/
theorem loader_binds_first_named {options : Options} {host : Host} {hostRequests : List Request} {first : Session}
    (made : create options host hostRequests = .ok first) {ops : List Operation} {o : Operation}
    (fits : Fitting (ops ++ [o]) first) {turn : Turn} (ran : .ran turn ∈ o.events (afterAll ops first))
    (up : Touches (licence turn.unit (turn.before.unit turn.unit).body) .all turn.before m)
    (entry : (m.unit site.unit).entry = some e) (sets : a.sets = [self, path]) :
    let dir := Text.parentPath (m.entry e).path
    (∀ v ∈ path.items, m.namedBy? dir v = none) ∧ loadComponentAt a site m = .ok none m ∨
      ∃ v r t, m.NamesFirst dir path v r ∧ loadComponentAt a site m = .ok (some self) t ∧
        Honours m t e r self := by
  intro dir
  cases named : m.resourceNamed? dir path with
  | none =>
    exact .inl ⟨resourceNamed?_eq_none.1 named, loadComponentAt_unnamed sets entry named⟩
  | some r =>
    obtain ⟨v, names⟩ := namesFirst_of_resourceNamed? named
    obtain ⟨rest, receptive⟩ := receptive_in_turn made fits ran up
    have shelved : Shelved (afterAll ops first) := (Shelved.create made).afterAll ops
    have there := (shelved.in_turn ran up).of_resourceNamed? named
    exact .inr ⟨v, r, _, names, loadComponentAt_run sets entry named,
      honours_setAllDeclared rest receptive there e self site⟩

/-- A name for an instance of the type, other than that of `oneButton`. -/
def otherButton : NameMap (Option ObjectId) := ⟨[("other", some ⟨0⟩)]⟩

/-- A class whose initializer calls the loader with a path that is one text or another, and an instance of it. -/
def choosingTree : Tree :=
  let imports : Stmt := .importFrom {} "wpf" 0 [⟨"LoadComponent", ""⟩]
  let path (text : String) : Stmt := .assign {} [.name {} "p"] (.literal {} (.str text))
  let loads : Stmt := .expr {} (.call {} (.name {} "LoadComponent") [.name {} "self", .name {} "p"] ["", ""])
  let cls : Stmt := .classDef {} "App" [] [.functionDef {} "__init__" [⟨"self", .plain, .missing⟩] [loads] []]
  let instance_ : Stmt := .assign {} [.name {} "a"] (.call {} (.name {} "App") [] [])
  ⟨{}, [imports, path "a.xaml", path "b.xaml", cls, instance_]⟩

/-- The analysis of this program, beside two resources that the texts name. -/
def choosing : List Operation :=
  [.addResource "/a.xaml", .setResourceObjects ⟨0⟩ oneButton, .addResource "/b.xaml",
    .setResourceObjects ⟨1⟩ otherButton, .addModule "app" "/app.py", .replaceTree ⟨0⟩ choosingTree,
    .enqueueEntry ⟨0⟩, .analyzeQueued .never]

def choosingArguments : Arguments := ⟨[.ofList [some ⟨7⟩], .ofList [some ⟨4⟩, some ⟨5⟩]], ["", ""]⟩

def choosingSite : Site := ⟨⟨.call, {}⟩, ⟨2⟩⟩

/-- When the initializer is run again, its call binds the resource of the older text to the instance. -/
theorem loader_binds_first_named_choosing :
    ∃ turn t, .ran turn ∈ (Operation.analyzeQueued .never).events
        (afterAll (choosing ++ [.enqueueUnit ⟨2⟩ .back]) loaderSession) ∧
      loadComponentAt choosingArguments choosingSite turn.before = .ok (some (.ofList [some ⟨7⟩])) t ∧
      (⟨0⟩ : EntryId) ∈ (t.resource ⟨0⟩).dependents ∧ t.TypeIn (.part ⟨7⟩ (.member "button")) ⟨0⟩ := by
  have made : create {} loaderHost [] = .ok loaderSession := create_unasked _ _
  have fits : Fitting (choosing ++ [.enqueueUnit ⟨2⟩ .back] ++ [.analyzeQueued .never]) loaderSession := by
    decide +kernel
  generalize same : afterAll (choosing ++ [.enqueueUnit ⟨2⟩ .back]) loaderSession = q
  obtain ⟨waits, alive, entry, path, older, declares, kind⟩ :
      q.queue.pop?.map (·.1.unit) = some ⟨2⟩ ∧ q.isAlive ⟨2⟩ = true ∧ (q.unit ⟨2⟩).entry = some ⟨0⟩ ∧
      (q.entry ⟨0⟩).path = "/app.py" ∧ q.namedBy? "/" ⟨4⟩ = some ⟨0⟩ ∧
      (q.resource ⟨0⟩).objects.toList = oneButton.toList ∧ (q.form ⟨7⟩).kind = .userInstance := by
    rw [← same]
    decide +kernel
  obtain ⟨⟨job, queue⟩, popped, unit⟩ := Option.map_eq_some_iff.1 waits
  let m := q.begun queue job.unit
  have ran : .ran (turnOf job.unit m) ∈ (Operation.analyzeQueued .never).events q := ran_of_pop popped (by rwa [unit])
  have ranThere := ran
  rw [← same] at ranThere
  have beside : Text.parentPath (m.entry ⟨0⟩).path = "/" := by
    rw [show (m.entry ⟨0⟩).path = _ from path]
    decide
  have enters : (m.unit choosingSite.unit).entry = some ⟨0⟩ := entry
  have oldest : m.namedBy? "/" ⟨4⟩ = some ⟨0⟩ := older
  have bound := loader_binds_first_named (a := choosingArguments) made fits ranThere .refl enters rfl
  simp only [turnOf, beside] at bound
  have first : ∀ v r, m.NamesFirst "/" (.ofList [some ⟨4⟩, some ⟨5⟩]) v r → r = ⟨0⟩ := by
    intro v r names
    have mem : v ∈ [(⟨4⟩ : ValueId), ⟨5⟩] := names.mem
    obtain rfl | rfl : v = ⟨4⟩ ∨ v = ⟨5⟩ := by simpa using mem
    · exact Option.some.inj (names.names.symm.trans oldest)
    · exact absurd ((names.first ⟨4⟩ (by decide) (by decide)).symm.trans oldest) nofun
  rcases bound with ⟨none, -⟩ | ⟨v, r, t, names, run, honours⟩
  · exact absurd ((none ⟨4⟩ (by decide)).symm.trans oldest) nofun
  · obtain rfl := first v r names
    refine ⟨_, t, ran, run, honours.depends, ?_⟩
    refine honours.declared ⟨7⟩ (by decide) "button" _ ⟨0⟩ (memberPlace?_of_instance kind _) ?_
    rw [show (m.resource ⟨0⟩).objects.toList = _ from declares]
    exact List.mem_singleton_self _

/-- The path of the call can be either text, and each names a resource, but the module depends on the first
resource only, and the instance has no member for the object that the other one declares. -/
theorem loader_passes_over_second_named :
    let p := afterAll choosing loaderSession
    let t := after (loadComponentAt choosingArguments choosingSite) p
    p.namedBy? "/" ⟨4⟩ = some ⟨0⟩ ∧ p.namedBy? "/" ⟨5⟩ = some ⟨1⟩ ∧
      (p.findName? ⟨0⟩ "p").map p.types = choosingArguments.sets[1]? ∧
      (p.findName? ⟨2⟩ "self").map p.types = choosingArguments.sets[0]? ∧
      (p.resource ⟨0⟩).dependents = [⟨0⟩] ∧ (p.resource ⟨1⟩).dependents = [] ∧
      (p.resource ⟨1⟩).objects.toList = otherButton.toList ∧ p.held (.part ⟨7⟩ (.member "other")) = ⊥ ∧
      (t.resource ⟨1⟩).dependents = [] ∧ t.held (.part ⟨7⟩ (.member "other")) = ⊥ := by
  decide +kernel

end Typeflow.Session
