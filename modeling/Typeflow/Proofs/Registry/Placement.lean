import Typeflow.Proofs.Registry.History

/-! Registrations that wait for a module and registrations that find it loaded. What a module gets does
not depend on when it is loaded, except for functions that two registrations with different names are
meant for. -/
namespace Typeflow.Session

variable {s t u : Session} {name : String}

/-- The name that the function of a registration has in the module of a name, whichever module that is.
A function of a class is meant if the class is not a module itself. -/
def meaning? (s : Session) (name : String) (r : Registration) : Option String :=
  if r.module = name then some r.name
  else if (s.loadedModule? r.module).isSome then none
  else do
    let (parent, last) ← Text.lastDot r.module
    if parent = name then some (last ++ "." ++ r.name) else none

/-- Registrations for one function mean the same. -/
theorem meaning?_of_key {r other : Registration} (h : r.key = other.key) :
    s.meaning? name r = s.meaning? name other := by
  obtain ⟨module, function⟩ := Prod.mk.inj h
  simp only [meaning?, module, function]

/-- A registration is meant for a module when it means one of its functions. -/
theorem targetOf?_eq_iff {m : ValueId} (same : SameBut name s t) (loaded : t.loadedModule? name = some m)
    (elsewhere : ∀ other, s.loadedModule? other ≠ some m) (r : Registration) (qualified : String) :
    t.targetOf? r = some (m, qualified) ↔ s.meaning? name r = some qualified := by
  by_cases own : r.module = name
  · simp only [targetOf?, meaning?, own, loaded, if_true, Option.some.injEq, Prod.mk.injEq, true_and]
  · rw [meaning?, if_neg own, targetOf?, same _ own]
    cases bound : s.loadedModule? r.module with
    | some other =>
      have apart : other ≠ m := fun h => elsewhere r.module (h ▸ bound)
      simp [apart]
    | none =>
      simp only [Option.isSome_none, Bool.false_eq_true, if_false, bind]
      cases Text.lastDot r.module with
      | none => simp
      | some halves =>
        obtain ⟨parent, last⟩ := halves
        by_cases above : parent = name
        · simp [above, loaded]
        · have apart : s.loadedModule? parent ≠ some m := elsewhere parent
          simp only [Option.bind_some, same _ above, if_neg above]
          cases bound : s.loadedModule? parent with
          | none => simp
          | some other =>
            have ne : other ≠ m := fun h => apart (h ▸ bound)
            simp [ne]

/-- What means a function of a module waits for the module. -/
theorem waits_of_meaning {r : Registration} {qualified : String} (filed : Filed u) (hr : r ∈ u.logged)
    (h : s.meaning? name r = some qualified) : r ∈ u.registrationsFor name := by
  refine mem_registrationsFor filed hr ?_
  rw [meaning?] at h
  split_ifs at h with own
  · exact .inl own
  · obtain ⟨⟨parent, last⟩, dot, h⟩ := Option.bind_eq_some_iff.1 h
    obtain ⟨above, -⟩ := Option.ite_none_right_eq_some.1 h
    exact .inr (Text.lastPartBelow?_of_lastDot (above ▸ dot))

/-- What waits for a module stands in the log among others, in the same order. -/
theorem held_registrationsFor (filed : Filed u) (s : Session) (name qualified : String)
    (before : Option Specialization) :
    held (fun r => s.meaning? name r = some qualified) (u.registrationsFor name) before =
      held (fun r => s.meaning? name r = some qualified) u.logged before := by
  have every : ∀ pairs : List (String × List Registration),
      (∀ pair ∈ pairs, pair ∈ u.registrations.toList) → ∀ first,
      held (fun r => s.meaning? name r = some qualified) (pairs.flatMap fun pair =>
          if pair.1 = name || (Text.lastPartBelow? name pair.1).isSome then pair.2 else []) first =
        held (fun r => s.meaning? name r = some qualified) (pairs.map Prod.snd).flatten first := by
    intro pairs
    induction pairs with
    | nil => exact fun _ _ => rfl
    | cons pair rest ih =>
      intro there first
      have hp := there pair List.mem_cons_self
      rw [List.flatMap_cons, List.map_cons, List.flatten_cons, held_append, held_append,
        ih fun other ho => there other (List.mem_cons_of_mem _ ho)]
      congr 1
      split
      · rfl
      · next apart =>
        refine (held_eq_before fun r hr means => absurd ?_ apart).symm
        have waits := waits_of_meaning filed (mem_logged.2 ⟨pair, hp, hr⟩) means
        obtain ⟨other, ho, hr'⟩ := List.mem_flatMap.1 waits
        split at hr'
        · next near => rwa [← filed.own pair hp r hr, filed.own other ho r hr']
        · cases hr'
  exact every _ (fun _ hp => hp) before

/-- The registrations of several requests; those that cannot be fulfilled have none. -/
def asked (requests : List Request) : List Registration := requests.filterMap Request.registration?

private theorem asked_append (requests more : List Request) :
    asked (requests ++ more) = asked requests ++ asked more := List.filterMap_append

def requesting (requests : List Request) : List Operation := requests.map .specialize

private theorem installs_requesting (tabled : Tabled s) (requests : List Request) :
    Installs s (asked requests) (afterAll (requesting requests) s) := by
  induction requests generalizing s with
  | nil => exact .refl tabled
  | cons request rest ih =>
    have run : afterAll (requesting (request :: rest)) s =
        afterAll (requesting rest) (after (fulfil request) s) := rfl
    rw [run]
    cases h : request.registration? with
    | none =>
      obtain ⟨fault, fails⟩ := fulfil_of_none h s
      rw [after_of_error fails, asked, List.filterMap_cons_none h]
      exact ih tabled
    | some r =>
      have first := installs_register tabled r
      rw [fulfil_of_some h, asked, List.filterMap_cons_some h]
      exact first.trans (ih first.tabled)

/-- A name was bound anew, and what waits for it was installed. -/
structure Loaded (name : String) (s t : Session) : Prop where
  same : SameBut name s t
  replayed : Replayed s (s.registrationsFor name) t

theorem Loaded.of_installs {q : Session} (bound : Rebound s q) (same : SameBut name s q)
    (h : Installs q (s.registrationsFor name) t) : Loaded name s t where
  same other ho := (h.same other).trans (same other ho)
  replayed := .of_installs bound h

private theorem Loaded.trans_rebound {q : Session} (h : Loaded name s t) (g : Rebound t q)
    (same : SameModules t q) : Loaded name s q where
  same other ho := (same other).trans (h.same other ho)
  replayed :=
    { slots m qualified := by
        rw [g.replacement, h.replayed.slots]
        simp only [same.targetOf?]
      log key := (g.registered? key).trans (h.replayed.log key)
      options := g.options.trans h.replayed.options
      hostRequests := g.hostRequests.trans h.replayed.hostRequests
      tabled := g.tabled }

private theorem loaded_addModule (tabled : Tabled s) (named : name.isEmpty = false) (path : String) :
    Loaded name s (after (addModule name path) s) := by
  let q := s.withListed name path
  have aside : Aside s q := aside_withListed s name path
  have wide : s.values.size < q.values.size := by
    rw [size_withListed]
    exact Nat.lt_succ_self _
  have first := aside.tabled tabled
  obtain ⟨bound, same⟩ := rebound_setModule first name (m := ⟨s.values.size⟩) wide
  have whole := (Rebound.of_aside aside tabled).trans bound
  have installed := installs_installFor bound.tabled name
  rw [whole.registrationsFor] at installed
  have wakes := (Apart.wake name).aside (after (bindModule name ⟨s.values.size⟩) q)
  rw [after_addModule, named, if_neg Bool.false_ne_true]
  rw [after_bindModule] at wakes ⊢
  refine (Loaded.of_installs whole (fun other ho => ?_) installed).trans_rebound
    (.of_aside wakes installed.tabled) (wakes.sameModules installed.tabled)
  exact (same other ho).trans (aside.sameModules tabled other)

/-- A module without a name is bound to none. -/
theorem sameModules_addModule (tabled : Tabled s) (path : String) :
    SameModules s (after (addModule "" path) s) := by
  have aside : Aside s (s.withListed "" path) := aside_withListed s "" path
  rw [after_addModule]
  exact (aside.sameModules tabled).trans
    (((Apart.announce path).aside _).sameModules (aside.tabled tabled))

/-- The cells stay with their names, and those that are loaded stay loaded. -/
structure CellsStay (s t : Session) : Prop where
  modules : t.modules = s.modules
  loaded : ∀ r, (s.ref r).loaded = true → (t.ref r).loaded = true

theorem CellsStay.updateRef (s : Session) (m : Found) (r : RefId) :
    CellsStay s (after (updateRef r fun ref => { ref with module := m, loaded := true }) s) := by
  refine ⟨rfl, fun q loaded => ?_⟩
  rw [ref_updateRef]
  split
  · rfl
  · exact loaded

private theorem RegistryTurn.cellsStay {rs : List Registration} (tabled : Tabled s)
    (turn : RegistryTurn s rs t) : CellsStay s t := by
  cases turn with
  | aside h => exact ⟨h.modules, fun r loaded => by rwa [ref, h.refs]⟩
  | load name r m cell idle there =>
    have installed := (loaded_loadCell tabled name r there).2
    have updated := CellsStay.updateRef s m r
    refine ⟨installed.modules.trans updated.modules, fun q loaded => ?_⟩
    rw [ref, installed.refs]
    exact updated.loaded q loaded
  | settle r idle => exact .updateRef s none r

def Alone (name : String) (s t : Session) : Prop :=
  ∀ other, other ≠ name → ∀ r, s.peek? other = some r → (t.ref r).loaded = true → (s.ref r).loaded = true

/-- An evaluation that loads no cell of another name leaves all names with their modules, or it loads
the cell of this name once. -/
theorem loaded_of_turning (h : Relation.ReflTransGen Turning s t) (tabled : Tabled s)
    (alone : Alone name s t) :
    CellsStay s t ∧ (Rebound s t ∧ SameModules s t ∨
      Loaded name s t ∧ ∃ r, s.peek? name = some r ∧ (t.ref r).loaded = true) := by
  induction h with
  | refl => exact ⟨⟨rfl, fun _ => id⟩, .inl ⟨.refl tabled, .refl s⟩⟩
  | @tail u t before turning ih =>
    have course : Course True s [] u := Courses.course_of_turning before tabled
    have ordered := course.tabled tabled
    obtain ⟨rs, turn⟩ := turning ordered
    have next := turn.cellsStay ordered
    obtain ⟨stay, done⟩ := ih fun other ho r hr loaded => alone other ho r hr (next.loaded r loaded)
    have stays : CellsStay s t :=
      ⟨next.modules.trans stay.modules, fun r loaded => next.loaded r (stay.loaded r loaded)⟩
    -- What leaves the names with their modules does so before and after the name is loaded.
    have quiet : Rebound u t → SameModules u t → Rebound s t ∧ SameModules s t ∨
        Loaded name s t ∧ ∃ r, s.peek? name = some r ∧ (t.ref r).loaded = true := by
      intro rebound same
      rcases done with ⟨first, kept⟩ | ⟨loaded, r, cell, hl⟩
      · exact .inl ⟨first.trans rebound, kept.trans same⟩
      · exact .inr ⟨loaded.trans_rebound rebound same, r, cell, next.loaded r hl⟩
    refine ⟨stays, ?_⟩
    cases turn with
    | aside h => exact quiet (.of_aside h ordered) (h.sameModules ordered)
    | settle r idle => exact quiet (rebound_updateRef ordered r (by rintro _ ⟨⟩)) (sameModules_settle idle)
    | load other r m cell idle there =>
      let f : ModuleRef → ModuleRef := fun ref => { ref with module := m, loaded := true }
      obtain ⟨rebound, installed⟩ := loaded_loadCell ordered other r there
      have own : s.peek? other = some r := by rwa [peek?, ← stay.modules]
      have hl : ((after (loadCell r other m) u).ref r).loaded = true := by
        rw [ref, installed.refs, ← ref, ref_updateRef, if_pos ⟨rfl, ordered.index_lt cell⟩]
      have asleep : (s.ref r).loaded ≠ true := fun loaded => by
        rw [stay.loaded r loaded] at idle
        cases idle
      obtain rfl : other = name := by
        by_contra apart
        exact asleep (alone other apart r own hl)
      rcases done with ⟨first, kept⟩ | ⟨-, r', cell', hl'⟩
      · rw [first.registrationsFor] at installed
        refine .inr ⟨.of_installs (first.trans rebound) (fun n hn => ?_) installed, r, own, hl⟩
        exact (sameBut_updateRef ordered cell f n hn).trans (kept n)
      · obtain rfl : r' = r := Option.some.inj (cell'.symm.trans own)
        rw [idle] at hl'
        cases hl'

/-- A name gets its module: it is added, or an evaluation loads it and no other. -/
inductive Loads (name : String) (s : Session) : Operation → Prop
  | add (path : String) : Loads name s (.addModule name path)
  | evaluate {o : Operation} (evaluates : o.evaluates) (alone : Alone name s (after o.run s)) :
      Loads name s o

theorem Loads.loaded {o : Operation} (h : Loads name s o) (tabled : Tabled s)
    (absent : s.loadedModule? name = none) (there : (after o.run s).loadedModule? name ≠ none) :
    Loaded name s (after o.run s) := by
  cases h with
  | add path =>
    have ends : after (Operation.run (.addModule name path)) s = after (addModule name path) s :=
      after_ignore _ s
    rw [ends] at there ⊢
    cases named : name.isEmpty with
    | false => exact loaded_addModule tabled named path
    | true =>
      obtain rfl : name = "" := by simpa using named
      exact absurd ((sameModules_addModule tabled path "").trans absent) there
  | evaluate evaluates alone =>
    have turning := (o.courses evaluates s (Realm.closed_all s)).1
    rcases (loaded_of_turning turning tabled alone).2 with ⟨-, same⟩ | ⟨loaded, -⟩
    · exact absurd ((same name).trans absent) there
    · exact loaded

/-- What is in the log was there before or is installed, for its function. -/
theorem Installs.mem_logged {rs : List Registration} (h : Installs s rs t) (filed : Filed s)
    {r : Registration} (hr : r ∈ t.logged) : ∃ other ∈ s.logged ++ rs, other.key = r.key := by
  have found := h.tabled.filed.registered?_of_mem hr
  rw [h.log] at found
  rcases of_held found with known | ⟨other, ho, same, -⟩
  · exact ⟨_, List.mem_append_left _ (filed.mem_of_registered? known), rfl⟩
  · exact ⟨other, List.mem_append_right _ ho, same⟩

/-- The log and what is asked for later hold for a function what was asked for last. -/
theorem Installs.held_logged {rs more : List Registration} (h : Installs s rs t) (filed : Filed s)
    (key : String × String) (before : Option Specialization) :
    held (fun r => r.key = key) (t.logged ++ more) before =
      held (fun r => r.key = key) (s.logged ++ (rs ++ more)) before := by
  rw [held_append, held_append, held_append, h.tabled.filed.held_logged, filed.held_logged, h.log,
    held_or]

/-- A name that has no module gets one between some requests and others. -/
structure Placement (s : Session) (name : String) (before : List Request) (load : Operation)
    (m : ValueId) : Prop where
  absent : s.loadedModule? name = none
  elsewhere : ∀ other, s.loadedModule? other ≠ some m
  loads : Loads name (afterAll (requesting before) s) load
  loaded : (after load.run (afterAll (requesting before) s)).loadedModule? name = some m

/-- The session after some requests, the loading of a module and more requests. -/
def placed (s : Session) (before : List Request) (load : Operation) (after_ : List Request) : Session :=
  afterAll (requesting after_) (after load.run (afterAll (requesting before) s))

theorem Placement.slots {before : List Request} {load : Operation} {m : ValueId} (tabled : Tabled s)
    (h : Placement s name before load m) (after_ : List Request) (qualified : String) :
    (placed s before load after_).specialization? m qualified =
      held (fun r => s.meaning? name r = some qualified)
        ((afterAll (requesting before) s).logged ++ asked after_) (s.specialization? m qualified) := by
  let u := afterAll (requesting before) s
  let v := after load.run u
  have earlier : Installs s (asked before) u := installs_requesting tabled before
  have there : v.loadedModule? name ≠ none := fun none => nomatch none.symm.trans h.loaded
  have loaded : Loaded name u v :=
    h.loads.loaded earlier.tabled ((earlier.same name).trans h.absent) there
  have later : Installs v (asked after_) (placed s before load after_) :=
    installs_requesting loaded.replayed.tabled after_
  have targets : ∀ r, v.targetOf? r = some (m, qualified) ↔ s.meaning? name r = some qualified :=
    fun r => targetOf?_eq_iff (fun other ho => (loaded.same other ho).trans (earlier.same other))
      h.loaded h.elsewhere r qualified
  have unchanged : u.specialization? m qualified = s.specialization? m qualified := by
    rw [earlier.slots]
    refine held_eq_before fun r hr target => ?_
    obtain ⟨other, bound⟩ := loaded_of_targetOf? target
    exact absurd bound (h.elsewhere other)
  rw [later.slots, loaded.replayed.slots, unchanged, held_append,
    ← held_registrationsFor earlier.tabled.filed]
  simp only [targets]

/-- When registrations for one function only mean a function of the module, it does not matter which of
them are in the log already. -/
theorem Installs.held_meaning {rs more : List Registration} (h : Installs s rs t) (filed : Filed s)
    {qualified : String}
    (single : ∀ r ∈ s.logged ++ (rs ++ more), s.meaning? name r = some qualified →
      ∀ other ∈ s.logged ++ (rs ++ more), s.meaning? name other = some qualified → other.key = r.key)
    (before : Option Specialization) :
    held (fun r => s.meaning? name r = some qualified) (t.logged ++ more) before =
      held (fun r => s.meaning? name r = some qualified) (s.logged ++ (rs ++ more)) before := by
  have known : ∀ r ∈ t.logged ++ more, ∃ other ∈ s.logged ++ (rs ++ more), other.key = r.key := by
    intro r hr
    rw [← List.append_assoc]
    rcases List.mem_append.1 hr with hr | hr
    · obtain ⟨other, ho, same⟩ := h.mem_logged filed hr
      exact ⟨other, List.mem_append_left _ ho, same⟩
    · exact ⟨r, List.mem_append_right _ hr, rfl⟩
  by_cases there : ∃ r ∈ s.logged ++ (rs ++ more), s.meaning? name r = some qualified
  · obtain ⟨r, hr, means⟩ := there
    have key : ∀ other ∈ s.logged ++ (rs ++ more),
        s.meaning? name other = some qualified ↔ other.key = r.key := fun other ho =>
      ⟨single r hr means other ho, fun same => (meaning?_of_key same).trans means⟩
    rw [held_congr key, ← h.held_logged filed]
    refine held_congr fun other ho => ?_
    obtain ⟨first, hf, same⟩ := known other ho
    rw [← meaning?_of_key same, ← same, key first hf]
  · rw [held_eq_before fun r hr means => absurd ⟨r, hr, means⟩ there]
    refine held_eq_before fun r hr means => ?_
    obtain ⟨other, ho, same⟩ := known r hr
    exact absurd ⟨other, ho, (meaning?_of_key same).trans means⟩ there

/-- Wherever among requests a module is loaded, its table ends up with what the registrations for it
ask for, the ones that were made before in the order of the log and the later ones in the order of the
requests. When those that mean a function are all for one name, this is what was asked for last, and
so the place of the loading does not matter. -/
theorem placement_of_loading {options : Options} {host : Host} {hostRequests : List Request}
    {first : Session} (created : create options host hostRequests = .ok first)
    (history : List Operation) {name : String} {before after_ : List Request} {load : Operation}
    {m : ValueId} (placement : Placement (afterAll history first) name before load m) :
    let s := afterAll history first
    let t := placed s before load after_
    (∀ qualified, t.specialization? m qualified =
      held (fun r => s.meaning? name r = some qualified)
        ((afterAll (requesting before) s).logged ++ asked after_) (s.specialization? m qualified)) ∧
    ∀ qualified, (∀ r ∈ s.logged ++ asked (before ++ after_), s.meaning? name r = some qualified →
        ∀ other ∈ s.logged ++ asked (before ++ after_), s.meaning? name other = some qualified →
          other.key = r.key) →
      t.specialization? m qualified =
        held (fun r => s.meaning? name r = some qualified) (s.logged ++ asked (before ++ after_))
          (s.specialization? m qualified) := by
  intro s t
  have made : Course True _ _ first := course_create created
  have start : Tabled first := made.tabled (tabled_blank _ _ _)
  have tabled : Tabled s := (course_afterAll history (fun _ _ _ => trivial) start).tabled start
  have slots := fun qualified => placement.slots tabled after_ qualified
  refine ⟨slots, fun qualified single => ?_⟩
  rw [asked_append] at single ⊢
  rw [slots]
  exact (installs_requesting tabled before).held_meaning tabled.filed single _

/-- A module that is added after the last of its replacements was asked for. -/
theorem placement_of_loading_last :
    let first : Request := .replace ⟨"M", "f", ⟨.recipe none .set (.instanceOf .int), true⟩⟩
    let last : Registration := ⟨"M", "f", ⟨.recipe none .set (.instanceOf .str), false⟩⟩
    (placed bare [first, .replace last] (.addModule "M" "/M.py") []).specialization? ⟨0⟩ "f" =
      some last.specialization := by
  intro first last
  have none : ∀ other, bare.loadedModule? other = none := by
    intro other
    have cell : bare.peek? other = none := rfl
    rw [loadedModule?, cell]
    rfl
  have placement : Placement bare "M" [first, .replace last] (.addModule "M" "/M.py") ⟨0⟩ :=
    ⟨none "M", fun other => by rw [none]; rintro ⟨⟩, .add "/M.py", by decide +kernel⟩
  refine ((placement_of_loading create_bare [] placement).2 "f" ?_).trans ?_
  · decide +kernel
  · have means : (afterAll [] bare).meaning? "M" last = some "f" := rfl
    have ends : asked ([first, .replace last] ++ []) = asked [first] ++ [last] := rfl
    rw [ends, held_append, held_append, held, List.foldl_cons, List.foldl_nil, if_pos means]

/-- Requests for a method of a class, first under the name that the class would have as a module and
then under its own. -/
def competingRequests : List Request :=
  [.replace ⟨"M.C", "f", ⟨.recipe none .set (.instanceOf .str), false⟩⟩,
    .replace ⟨"M", "C.f", ⟨.recipe none .set (.instanceOf .int), true⟩⟩]

/-- What waits for a module is installed in the order of the log, which is sorted by names: the request
that is made last does not win when the module is loaded after it, while it does when it finds the
module loaded. -/
theorem placement_decides :
    let load : Operation := .addModule "M" "/M.py"
    let analyzed := fun t : Session =>
      ((t.loadedModule? "M").bind (t.specialization? · "C.f")).map (·.analyze)
    analyzed (placed bare [] load competingRequests) = some true ∧
      analyzed (placed bare competingRequests load []) = some false := by
  decide +kernel

end Typeflow.Session
