import Typeflow.Proofs.Resources.Declare

/-! What a change of the objects of a resource reaches. The modules that loaded it are analysed anew, which
runs their own units and those that read their names, and whoever calls the loader again meets the new
objects. A body that finds the loader in another way is not run again. -/
namespace Typeflow.Session

variable {s t : Session}

def withDependent (s : Session) (e : EntryId) (r : ResourceId) : Session :=
  after (updateResource r fun resource =>
    { resource with dependents := Variable.addOnce e resource.dependents }) s

theorem endures_withDependent (s : Session) (e : EntryId) (r : ResourceId) :
    Endures s (s.withDependent e r) where
  host := .of_eq rfl
  resources := by
    apply Roams.grows_updateResource
    exact fun _ => ⟨rfl, fun _ h => Variable.mem_addOnce.2 (.inr h)⟩
  shelves := Roams.shelves_updateResource r _ s

/-- A resource that a text names is there. -/
theorem Shelved.of_resourceNamed? {r : ResourceId} {dir : String} {texts : ValueSet} (shelved : Shelved s)
    (named : s.resourceNamed? dir texts = some r) : r.index < s.resources.size := by
  obtain ⟨v, -, found⟩ := List.exists_of_findSome?_eq_some named
  obtain ⟨text, -, found⟩ := Option.bind_eq_some_iff.1 found
  exact shelved _ r found

/-- No other resource is touched. -/
theorem resource_withDependent {e : EntryId} {r other : ResourceId} (differs : other ≠ r) :
    (s.withDependent e r).resource other = s.resource other := by
  rw [withDependent, resource_updateResource, if_neg fun h => differs h.1]

/-- The module of a call with the path of a resource is among those that depend on it. -/
theorem mem_withDependent {e : EntryId} {r : ResourceId} (there : r.index < s.resources.size) :
    e ∈ ((s.withDependent e r).resource r).dependents := by
  rw [withDependent, resource_updateResource, if_pos ⟨rfl, there⟩]
  exact Variable.mem_addOnce.2 (.inl rfl)

def setAllDeclared (objects : NameMap (Option ObjectId)) (self : ValueSet) (site : Site) : Analysis Unit :=
  objects.toList.forM fun pair => setDeclared self pair.1 pair.2 site

/-- A call with the path of a resource makes the module depend on it and sets what it declares. -/
theorem loadComponentAt_run {a : Arguments} {self path : ValueSet} {site : Site} {e : EntryId} {r : ResourceId}
    (sets : a.sets = [self, path]) (entry : (s.unit site.unit).entry = some e)
    (named : s.resourceNamed? (Text.parentPath (s.entry e).path) path = some r) :
    loadComponentAt a site s =
      .ok (some self) (after (setAllDeclared (s.resource r).objects self site) (s.withDependent e r)) := by
  have note : updateResource r (fun resource =>
      { resource with dependents := Variable.addOnce e resource.dependents }) s = .ok () (s.withDependent e r) := rfl
  have total : Total (setAllDeclared (s.resource r).objects self site) := by
    apply Total.forM
    intro pair
    exact total_setDeclared self pair.1 pair.2 site
  obtain ⟨⟨⟩, declared⟩ := total (s.withDependent e r)
  unfold setAllDeclared at declared ⊢
  simp only [loadComponentAt, read_run, sets, entry, named]
  rw [bind_of_ok note, bind_of_ok declared]
  rfl

/-- In the course of the turn a unit of a module calls the loader, with values and the path of a
resource. -/
structure Turn.Loads (turn : Turn) (m : Session) (a : Arguments) (site : Site) (e : EntryId)
    (r : ResourceId) : Prop where
  up : Touches (licence turn.unit (turn.before.unit turn.unit).body) .all turn.before m
  entry : (m.unit site.unit).entry = some e
  path : ∃ self path, a.sets = [self, path] ∧
    m.resourceNamed? (Text.parentPath (m.entry e).path) path = some r
  on : Touches (licence turn.unit (turn.before.unit turn.unit).body) .all
    (Session.after (loadComponentAt a site) m) turn.after

namespace Turn.Loads

variable {turn : Turn} {m : Session} {a : Arguments} {site : Site} {e : EntryId} {r : ResourceId}

/-- The call yields the values that it was given. -/
theorem run (h : turn.Loads m a site e r) :
    loadComponentAt a site m = .ok (some (a.get 0))
      (Session.after (setAllDeclared (m.resource r).objects (a.get 0) site) (m.withDependent e r)) := by
  obtain ⟨self, path, sets, named⟩ := h.path
  have first : a.get 0 = self := by
    simp [Arguments.get, sets]
  rw [first]
  exact loadComponentAt_run sets h.entry named

/-- The module depends on the resource from then on. -/
theorem depends (h : turn.Loads m a site e r) (shelved : Shelved m) : e ∈ (turn.after.resource r).dependents := by
  have now : e ∈ ((m.withDependent e r).resource r).dependents := by
    obtain ⟨self, path, -, named⟩ := h.path
    exact mem_withDependent (shelved.of_resourceNamed? named)
  have declares : Accrues (m.withDependent e r)
      (Session.after (setAllDeclared (m.resource r).objects (a.get 0) site) (m.withDependent e r)) :=
    .setEachDeclared (a.get 0)
      (fun _ _ declared => (endures_withDependent m e r).knowsType (.of_resource declared)) site
  have call : KeepsResources (m.withDependent e r) (Session.after (loadComponentAt a site) m) := by
    rw [after_of_ok h.run]
    exact declares.stays.endures.resources
  exact ((call.trans (.of_touches h.on)) r).dependents now

/-- Each instance that is given bears all that the resource declares. -/
theorem bears (h : turn.Loads m a site e r) (rest : AtRest m) {name : String} {type : ObjectId}
    (declared : (m.resource r).objects.find? name = some (some type)) {v : ValueId}
    (mem : v ∈ (a.get 0).items) (kind : (m.form v).kind = .userInstance) :
    (Session.after (loadComponentAt a site) m).Bears v name type := by
  have same : Remembers m (m.withDependent e r) := .of_same rfl rfl (.of_eq rfl) rfl rfl
  have noted : AtRest (m.withDependent e r) := rest.remembers same
  have stands : (m.withDependent e r).memberPlace? v name = some (.part v (.member name)) :=
    memberPlace?_of_instance kind name
  rw [after_of_ok h.run]
  exact typeIn_setEachDeclared noted mem stands noted.attributes
    (fun _ _ declares => (endures_withDependent m e r).knowsType (.of_resource declares))
    (NameMap.mem_of_find? declared) site

end Turn.Loads

section Queue

variable {e : EntryId} {u head : UnitId}

private theorem moduleScopeOf_still {keep : NodeId → Prop} (hs : Sane s) (still : Still keep s t)
    (there : e.index < s.entries.size) : t.moduleScopeOf e = s.moduleScopeOf e := by
  obtain ⟨c, module⟩ := hs.coherent.modules e there
  obtain ⟨n, entry⟩ := still.entry e
  have later : (t.form (t.entry e).module).module? = some ⟨e, c⟩ := by
    rw [entry, still.module]
    exact module
  rw [Coherent.moduleScopeOf_eq module, Coherent.moduleScopeOf_eq later]

/-- Whoever waits goes on waiting while modules are queued. -/
theorem waits_on {es : List EntryId} (waits : s.job u ∈ s.queue.jobs) :
    let q := after (enqueueDependents es) s
    q.job u ∈ q.queue.jobs := by
  have still : Still (fun _ => False) s (after (enqueueDependents es) s) := by
    unfold enqueueDependents
    induction es generalizing s with
    | nil => exact .refl s
    | cons f rest ih =>
      have first : Still (fun _ => False) s (after (enqueueEntry f) s) := .enqueueEntry f
      have job : (after (enqueueEntry f) s).job u ∈ (after (enqueueEntry f) s).queue.jobs := by
        rw [first.job]
        exact first.kept _ waits
      rw [show after ((f :: rest).forM enqueueEntry) s = _ from after_seq (total_enqueueEntry f) s]
      exact first.trans (ih job)
  intro q
  rw [still.job]
  exact still.kept _ waits

/-- When modules are queued, the unit of each waits, and so does every unit that depends on a name of one. -/
theorem waits_enqueueDependents {es : List EntryId} (hs : Sane s) (mem : e ∈ es)
    (there : (s.entry e).removed = false) (heads : (s.entry e).unit = some head)
    (alive : s.isAlive u = true)
    (heeds : u = head ∨ s.queue.holds (s.job u) = true ∨
      ∃ name x types, s.Depends u (.name (s.moduleScopeOf e) name) x types) :
    let q := after (enqueueDependents es) s
    q.job u ∈ q.queue.jobs := by
  induction es generalizing s with
  | nil => cases mem
  | cons f rest ih =>
    let next := after (enqueueEntry f) s
    have first : after (enqueueDependents (f :: rest)) s = after (enqueueDependents rest) next :=
      after_seq (total_enqueueEntry f) s
    have still : Still (fun _ => False) s next := .enqueueEntry f
    have minds : Minds u s next := .enqueueEntry f
    have sane : Sane next := hs.moves (.of_stepwise (.enqueueEntry f) s)
    have living : next.isAlive u = true := (still.isAlive u).trans alive
    rw [first]
    by_cases same : f = e
    · subst same
      refine waits_on ?_
      rcases heeds with own | held | ⟨name, x, types, depends⟩
      · exact waits_enqueueEntry hs there heads alive (.inl own)
      · exact sane.coherent.mem_of_holds living (minds.waits living held)
      · exact waits_enqueueEntry hs there heads alive (.inr ⟨name, x, depends.stored, depends.reader⟩)
    · have inRange : e.index < s.entries.size := Nat.lt_of_not_le fun h => by
        rw [entry_of_le h] at heads
        cases heads
      obtain ⟨n, entry⟩ := still.entry e
      have later : e ∈ rest := List.mem_of_ne_of_mem (Ne.symm same) mem
      refine ih sane later (by rw [entry]; exact there) (by rw [entry]; exact heads) living ?_
      rcases heeds with own | held | ⟨name, x, types, depends⟩
      · exact .inl own
      · exact .inr (.inl (minds.waits living held))
      · rw [moduleScopeOf_still hs still inRange]
        exact .inr ((minds.depends living _ x types depends).imp_right fun h => ⟨name, x, types, h⟩)

end Queue

section Change

variable {p q : Session} {r : ResourceId} {e : EntryId} {objects : NameMap (Option ObjectId)} {n : Nat}

def withObjects (p : Session) (r : ResourceId) (objects : NameMap (Option ObjectId)) : Session :=
  after (updateResource r fun resource => { resource with objects }) p

/-- The resource declares the objects, and the modules that depend on it are queued. -/
theorem after_setResourceObjects (r : ResourceId) (objects : NameMap (Option ObjectId)) (p : Session) :
    after (setResourceObjects r objects) p =
      after (enqueueDependents (p.resource r).dependents) (p.withObjects r objects) := by
  have dependents : ((p.withObjects r objects).resource r).dependents = (p.resource r).dependents := by
    rw [withObjects, resource_updateResource]
    split <;> rfl
  have total : Total (updateResource r fun resource => { resource with objects }) := .modify _
  rw [← dependents]
  exact after_seq total p

private theorem sane_withObjects (sane : Sane p) : Sane (p.withObjects r objects) :=
  sane.bookkeeping (by constructor <;> rfl)

private theorem sane_setResourceObjects (sane : Sane p) : Sane (after (setResourceObjects r objects) p) := by
  rw [after_setResourceObjects]
  exact (sane_withObjects sane).moves (.of_stepwise (Stepwise.forM (fun e => .enqueueEntry e) _) _)

private theorem objects_setResourceObjects (there : r.index < p.resources.size) :
    ((after (setResourceObjects r objects) p).resource r).objects = objects := by
  have queues : Roams noLicence .all (enqueueDependents (p.resource r).dependents) fun _ => True :=
    .enqueueDependents _
  have keeps : KeepsResources (p.withObjects r objects) (after (setResourceObjects r objects) p) := by
    rw [after_setResourceObjects]
    exact .of_touches (queues _ (Realm.closed_all _)).1
  rw [(keeps r).objects, withObjects, resource_updateResource, if_pos ⟨rfl, there⟩]

/-- The unit of a module that depends on the resource is run again, and so is who depends on its names. -/
theorem runs_of_dependent (sane : Sane p) (mem : e ∈ (p.resource r).dependents)
    (present : (p.entry e).removed = false) {head u : UnitId} (heads : (p.entry e).unit = some head)
    (alive : p.isAlive u = true)
    (heeds : u = head ∨ p.queue.holds (p.job u) = true ∨
      ∃ name x types, p.Depends u (.name (p.moduleScopeOf e) name) x types)
    (ends : analyzeQueued .never (after (setResourceObjects r objects) p) = .ok n q) :
    ∃ turn, .ran turn ∈ (Operation.analyzeQueued .never).events (after (setResourceObjects r objects) p) ∧
      turn.unit = u ∧ turn.completed = true := by
  let t := after (setResourceObjects r objects) p
  have waits : t.job u ∈ t.queue.jobs := by
    have same : ∀ {name x types}, p.Depends u (.name (p.moduleScopeOf e) name) x types →
        (p.withObjects r objects).Depends u (.name (p.moduleScopeOf e) name) x types :=
      fun depends => ⟨depends.stored, depends.reader, depends.same⟩
    rw [show t = _ from after_setResourceObjects r objects p]
    exact waits_enqueueDependents (sane_withObjects sane) mem present heads alive
      (heeds.imp_right fun other => other.imp_right fun ⟨name, x, types, depends⟩ => ⟨name, x, types, same depends⟩)
  obtain ⟨turn, ran, unit⟩ := turn_of_analyzeQueued (sane_setResourceObjects sane) waits ends
  exact ⟨turn, ran, unit, completed_of_analyzeQueued ends ran⟩

end Change

namespace Turn.Loads

variable {turn : Turn} {m : Session} {a : Arguments} {site : Site} {e : EntryId} {r : ResourceId}

/-- Whatever callers do next, the module depends on the resource until the resource is removed. -/
theorem lasts {pre post : List Operation} {o : Operation} (h : turn.Loads m a site e r) (shelved : Shelved m)
    (ran : .ran turn ∈ o.events (Session.afterAll pre s)) (kept : .removeResource (some r) ∉ post) :
    e ∈ ((Session.afterAll (pre ++ o :: post) s).resource r).dependents := by
  have since := KeepsResources.sustains.covers.since ran
  have ended : KeepsResources turn.after (Session.after o.run (Session.afterAll pre s)) :=
    .of_all (fun _ _ => id) since.2.2
  rw [afterAll_append]
  exact KeepsDependents.afterAll kept _ ((ended r).dependents (h.depends shelved))

/-- To the end of a run of the queue the module depends on the resource, and what was given bears what the resource
declares. -/
theorem persists {q : Session} {n : Nat} (h : turn.Loads m a site e r) (rest : AtRest t) (shelved : Shelved m)
    (ends : analyzeQueued .never t = .ok n q) (ran : .ran turn ∈ (Operation.analyzeQueued .never).events t) :
    e ∈ (q.resource r).dependents ∧
      ∀ name type v, (t.resource r).objects.find? name = some (some type) → v ∈ (a.get 0).items →
        (m.form v).kind = .userInstance → q.Bears v name type := by
  have finished : Session.after (Operation.analyzeQueued .never).run t = q :=
    (after_ignore _ t).trans (after_of_ok ends)
  have running : Moves t ((Operation.analyzeQueued .never).events t) q := by
    have moves := Operation.moves_analyzeQueued .never t
    rwa [after_of_ok ends] at moves
  have resources := KeepsResources.sustains.covers.since ran
  have remembers := Remembers.sustains.covers.since ran
  have endures := Endures.sustains.covers.since ran
  rw [finished] at resources remembers endures
  have ahead : Stays turn.after q := by
    obtain ⟨pre, post, split⟩ := List.append_of_mem ran
    obtain ⟨_, _, -, now, later⟩ := running.split split
    obtain ⟨_, _, -, -, rfl, rfl⟩ := now.of_ran
    exact ⟨.of_all (fun _ _ => id) remembers.2.2, .of_moves later, .of_all (fun _ _ => id) endures.2.2⟩
  refine ⟨(ahead.endures.resources r).dependents (h.depends shelved), fun name type v found mem kind => ?_⟩
  have before : KeepsResources t m :=
    (KeepsResources.of_all (fun _ _ => id) resources.1).trans (.of_touches h.up)
  have then_ : AtRest m :=
    (rest.remembers (.of_all (fun _ _ => id) remembers.1)).remembers (Stays.of_touches h.up).remembers
  have call : Roams noLicence .all (loadComponentAt a site) Realm.all.opinion :=
    Roams.loadComponentAt (fun _ _ _ _ => trivial) site
  have now : (Session.after (loadComponentAt a site) m).Bears v name type :=
    h.bears then_ (by rw [(before r).objects]; exact found) mem kind
  exact now.stays (then_.remembers (.of_roams call m)) ((Stays.of_touches h.on).trans ahead)

end Turn.Loads

/-- After whatever callers do, let a resource that is there declare other objects, and let a run of the
queue that nobody cancels end normally. Every module that called the loader with the resource depends on
it, unless the resource was removed since. The unit of each module that depends on it is run to its end,
and so is every unit that may run and read a name of the module in its last turn. Whenever the loader is
called in this run with the resource, it yields what it was given; the module of the caller depends on the
resource in the end, and each instance that was given has an attribute for each object, which holds the
instance of its type. -/
theorem resource_change_reaches_loads {options : Options} {host : Host} {hostRequests : List Request}
    {s q : Session} (made : create options host hostRequests = .ok s) {ops : List Operation}
    (fits : Fitting ops s) {r : ResourceId} (there : r.index < (afterAll ops s).resources.size)
    {objects : NameMap (Option ObjectId)} {n : Nat}
    (ends : analyzeQueued .never (after (setResourceObjects r objects) (afterAll ops s)) = .ok n q) :
    let p := afterAll ops s
    let t := after (setResourceObjects r objects) p
    let later := (Operation.analyzeQueued .never).events t
    (∀ pre o post turn m a site e, ops = pre ++ o :: post → .ran turn ∈ o.events (afterAll pre s) →
      turn.Loads m a site e r → .removeResource (some r) ∉ post → e ∈ (p.resource r).dependents) ∧
    (∀ e ∈ (p.resource r).dependents, (p.entry e).removed = false → (p.entry e).tree.isSome = true →
      ∃ head, (p.entry e).unit = some head ∧ p.isAlive head = true ∧
        ∀ u, p.isAlive u = true →
          (u = head ∨ ∃ (turn : Turn) (name : String) (x : VarId) (types : ValueSet),
            turn.unit = u ∧ turn.IsLast (eventsOf ops s) ∧
              turn.Reads (.name (p.moduleScopeOf e) name) x types) →
          ∃ turn, .ran turn ∈ later ∧ turn.unit = u ∧ turn.completed = true) ∧
    (∀ turn m a site e, .ran turn ∈ later → turn.Loads m a site e r →
      loadComponentAt a site m = .ok (some (a.get 0)) (after (loadComponentAt a site) m) ∧
      e ∈ (q.resource r).dependents ∧
      ∀ name type v, objects.find? name = some (some type) → v ∈ (a.get 0).items →
        (m.form v).kind = .userInstance → q.Bears v name type) := by
  intro p t later
  have empty := sane_blank options host hostRequests
  have creation := moves_create made
  have start : Sane s := empty.moves creation
  have whole : Moves s (eventsOf ops s) p := moves_of_fitting ops start fits
  have sane : Sane p := start.moves whole
  have rest : AtRest t := ((AtRest.create made).afterAll ops).operation (.setResourceObjects r objects)
  have declared : (t.resource r).objects = objects := objects_setResourceObjects there
  refine ⟨?_, ?_, ?_⟩
  · rintro pre o post turn m a site e rfl ran loads kept
    have shelved : Shelved (afterAll pre s) := (Shelved.create made).afterAll pre
    exact loads.lasts (shelved.in_turn ran loads.up) ran kept
  · intro e mem present current
    have engaged := engaged_blank options host hostRequests
    have headed := (headed_blank options host hostRequests e).moves engaged empty creation
    obtain ⟨head, heads, alive, -⟩ :=
      headed.moves (engaged.moves empty creation) start whole present current
    refine ⟨head, heads, alive, fun u living reads => runs_of_dependent sane mem present heads living ?_ ends⟩
    rcases reads with own | ⟨turn, name, x, types, rfl, last, reads⟩
    · exact .inl own
    · exact .inr ((whole.heeds start last reads living).imp_right fun depends => ⟨name, x, types, depends⟩)
  · intro turn m a site e ran loads
    have before : Shelved p := (Shelved.create made).afterAll ops
    have shelved : Shelved t := before.shelves (.operation (.setResourceObjects r objects) p)
    obtain ⟨depends, bears⟩ := loads.persists rest (shelved.in_turn ran loads.up) ends ran
    rw [declared] at bears
    exact ⟨by rw [after_of_ok loads.run, loads.run], depends, bears⟩

def loaderHost : Host where
  objects := #[⟨.type "Button" "wpf" .object {}, .type⟩, ⟨.function "LoadComponent" "wpf" [], .function⟩,
    ⟨.module "wpf" ⟨[("LoadComponent", some ⟨1⟩)]⟩, .module⟩]
  importable := ⟨[("wpf", ⟨2⟩)]⟩
  moduleNames := ["wpf"]

def loaderSession : Session := after load (blank {} loaderHost [])

/-- A class whose initializer calls the loader with a path, and an instance of it. The loader is imported
by the module or by the initializer. -/
def componentTree (atTop : Bool) : Tree :=
  let imports : Stmt := .importFrom {} "wpf" 0 [⟨"LoadComponent", ""⟩]
  let loads : Stmt := .expr {} (.call {} (.name {} "LoadComponent")
    [.name {} "self", .literal {} (.str "w.xaml")] ["", ""])
  let body := if atTop then [loads] else [imports, loads]
  let cls : Stmt := .classDef {} "App" [] [.functionDef {} "__init__" [⟨"self", .plain, .missing⟩] body []]
  let instance_ : Stmt := .assign {} [.name {} "a"] (.call {} (.name {} "App") [] [])
  ⟨{}, if atTop then [imports, cls, instance_] else [cls, instance_]⟩

/-- The analysis of this program, beside a resource that declares objects at first. -/
def loadingComponent (atTop : Bool) (objects : NameMap (Option ObjectId)) : List Operation :=
  [.addResource "/w.xaml", .setResourceObjects ⟨0⟩ objects, .addModule "app" "/app.py",
    .replaceTree ⟨0⟩ (componentTree atTop), .enqueueEntry ⟨0⟩, .analyzeQueued .never]

def oneButton : NameMap (Option ObjectId) := ⟨[("button", some ⟨0⟩)]⟩

/-- The session after the resource declares the name and the queue has run. -/
def afterChange (p : Session) : Session :=
  after (analyzeQueued .never) (after (setResourceObjects ⟨0⟩ oneButton) p)

/-- When the module imports the loader, its unit is run again, and the instance gets the attribute. -/
theorem resource_change_reaches_loads_at_top :
    let p := afterAll (loadingComponent true {}) loaderSession
    let t := after (setResourceObjects ⟨0⟩ oneButton) p
    (∃ turn, .ran turn ∈ (Operation.analyzeQueued .never).events t ∧ turn.unit = ⟨0⟩ ∧
      turn.completed = true) ∧ (afterChange p).held (.part ⟨5⟩ (.member "button")) ≠ ⊥ := by
  intro p t
  have made : create {} loaderHost [] = .ok loaderSession := create_unasked _ _
  obtain ⟨fits, there, went, depends, present, current, heads, alive, bound⟩ :
      Fitting (loadingComponent true {}) loaderSession ∧ 0 < p.resources.size ∧
      succeeds (analyzeQueued .never) t = true ∧ (⟨0⟩ : EntryId) ∈ (p.resource ⟨0⟩).dependents ∧
      (p.entry ⟨0⟩).removed = false ∧ (p.entry ⟨0⟩).tree.isSome = true ∧
      (p.entry ⟨0⟩).unit = some ⟨0⟩ ∧ p.isAlive ⟨0⟩ = true ∧
      (afterChange p).held (.part ⟨5⟩ (.member "button")) ≠ ⊥ := by
    decide +kernel
  obtain ⟨n, ends⟩ := succeeded went
  obtain ⟨-, runs, -⟩ := resource_change_reaches_loads made fits there ends
  obtain ⟨head, headed, -, again⟩ := runs ⟨0⟩ depends present current
  exact ⟨again ⟨0⟩ alive (.inl (Option.some.inj (heads.symm.trans headed))), bound⟩

/-- When the initializer imports the loader itself, it is not run again: the module depends on the
resource, but the instance stays without the attribute, which it would have had from the start. -/
theorem local_loader_misses_change :
    let p := afterAll (loadingComponent false {}) loaderSession
    let first := afterAll (loadingComponent false oneButton) loaderSession
    let button : Place := .part ⟨2⟩ (.member "button")
    (⟨0⟩ : EntryId) ∈ (p.resource ⟨0⟩).dependents ∧
      succeeds (analyzeQueued .never) (after (setResourceObjects ⟨0⟩ oneButton) p) = true ∧
      (p.form ⟨2⟩).kind = .userInstance ∧ (afterChange p).held button = ⊥ ∧
      (first.form ⟨2⟩).kind = .userInstance ∧ first.held button ≠ ⊥ := by
  decide +kernel

end Typeflow.Session
