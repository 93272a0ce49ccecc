import Typeflow.Proofs.Definitions
import Typeflow.Proofs.History

/-! What a tree leaves behind when it is replaced: nothing, unless its module was removed before. -/
namespace Typeflow.Session

/-- Definitions without a body have no unit, and removed modules keep track of no definitions. -/
structure Severed (s : Session) : Prop where
  unit : ∀ v code, (s.form v).code? = some code → code.body = none → code.unit = none
  removed : ∀ e, (s.entry e).removed = true → (s.entry e).definitions = []

/-- Retiring the units of a module makes it forget its definitions, and changes no other module. -/
theorem Retires.forgets {s t : Session} {e : EntryId} {detaching : Bool} (h : Retires e detaching s t)
    (f : EntryId) : (t.entry f).definitions = [] ∨ f ≠ e ∧ t.entry f = s.entry f := by
  rw [h.entry]
  split
  · exact .inl rfl
  · next other =>
    by_cases hf : f = e
    · have out : s.entries.size ≤ f.index := Nat.le_of_not_lt fun hr => other ⟨hf, hf ▸ hr⟩
      exact .inl (by rw [entry_of_le out]; rfl)
    · exact .inr ⟨hf, rfl⟩

namespace Severed

variable {s t : Session}

/-- No definition has got a unit, and modules that have been removed have forgotten theirs. -/
theorem sheds (h : Severed s) (hs : Sheds s t)
    (entry : ∀ e, (t.entry e).definitions = [] ∨
      (t.entry e).removed = (s.entry e).removed ∧ (t.entry e).definitions = (s.entry e).definitions) :
    Severed t where
  unit v code hc hb := by
    rcases hs.code v with same | cuts
    · exact h.unit v code (same.symm.trans hc) hb
    · rw [cuts] at hc
      obtain ⟨old, -, rfl⟩ := Option.map_eq_some_iff.1 hc
      rfl
  removed e gone := by
    rcases entry e with none | ⟨removed, definitions⟩
    · exact none
    · rw [definitions]
      exact h.removed e (removed.symm.trans gone)

theorem still {keep : NodeId → Prop} (h : Severed s) (hs : Still keep s t) : Severed t := by
  refine h.sheds (.of_still hs) fun e => .inr ?_
  obtain ⟨n, hn⟩ := hs.entry e
  rw [hn]
  exact ⟨rfl, rfl⟩

theorem of_eq (h : Severed s) (values : t.values = s.values) (entries : t.entries = s.entries) :
    Severed t := by
  refine h.sheds (.of_values values) fun e => .inr ?_
  rw [Session.entry, entries]
  exact ⟨rfl, rfl⟩

theorem starts {v : ValueId} {e : EntryId} {body : Body} {scope : ScopeId} (h : Severed s)
    (hs : Starts v e body scope s t) : Severed t where
  unit w code hc hb := by
    rw [hs.code] at hc
    split at hc
    · obtain rfl := Option.some.inj hc
      cases hb
    · exact h.unit w code hc hb
  removed f gone := by
    rw [hs.entry] at gone ⊢
    split at gone
    · next hf =>
      rw [if_pos hf]
      exact h.removed f gone
    · next hf =>
      rw [if_neg hf]
      exact h.removed f gone

/-- Only a module that is there defines anything. -/
theorem defines {kind : ValueKind} {u : UnitId} {body : Body} (h : Severed s)
    (present : ∀ e, (s.unit u).entry = some e → (s.entry e).removed = false)
    (hs : Defines kind u body s t) : Severed t where
  unit v code hc hb := by
    by_cases hv : v.index = s.values.size
    · obtain rfl : v = ⟨s.values.size⟩ := ValueId.index_inj.1 hv
      rw [hs.code] at hc
      obtain rfl := Option.some.inj hc
      rfl
    · rw [hs.form v hv] at hc
      exact h.unit v code hc hb
  removed e gone := by
    rw [hs.entry] at gone ⊢
    split at gone
    · next he =>
      rw [present e he.1] at gone
      cases gone
    · next he =>
      rw [if_neg he]
      exact h.removed e gone

/-- A run of a body that may run keeps definitions and modules severed: no module is removed in it. -/
theorem steps {L : Licence} (h : Severed s) (hs : Sane s) (hl : L.Sound s)
    (present : ∀ u body e, L.define u body → (s.unit u).entry = some e → (s.entry e).removed = false)
    (hst : Steps L s t) : Severed t := by
  let P (t : Session) : Prop := Severed t ∧
    ∀ u body e, L.define u body → (t.unit u).entry = some e → (t.entry e).removed = false
  refine (hs.steps_induct (P := P) hl hst ⟨h, present⟩ ?_).1
  rintro r q sane sound next ⟨severed, there⟩
  cases next.shape sane.coherent with
  | still hq =>
    refine ⟨severed.still hq, fun u body e hd he => ?_⟩
    rw [hq.unit] at he
    rw [hq.removed]
    exact there u body e hd he
  | starts v f b scope place m code hm _ enqueued =>
    refine ⟨(severed.starts hm).still enqueued, fun u body e hd he => ?_⟩
    have range := (sound u body hd).1
    rw [enqueued.unit, hm.unit, if_neg (Nat.ne_of_lt range)] at he
    have same : (q.entry e).removed = (r.entry e).removed := by
      rw [enqueued.removed, hm.entry]
      split <;> rfl
    rw [same]
    exact there u body e hd he
  | defines w b licensed hq =>
    refine ⟨severed.defines (fun e he => there w b e licensed he) hq, fun u body e hd he => ?_⟩
    rw [Session.unit, hq.units] at he
    have same : (q.entry e).removed = (r.entry e).removed := by
      rw [hq.entry]
      split <;> rfl
    rw [same]
    exact there u body e hd he

theorem withEntry (h : Severed s) (name path : String) : Severed (s.withEntry name path) := by
  refine h.sheds (.withEntry name path) fun e => ?_
  have look : (s.withEntry name path).entry e =
      if e.index = s.entries.size then { name, path, module := ⟨s.values.size⟩ } else s.entry e := by
    simp only [entry, Session.withEntry, getD_push]
  rw [look]
  split
  · exact .inl rfl
  · exact .inr ⟨rfl, rfl⟩

theorem replaceTree (h : Severed s) (e : EntryId) (tree : Option Tree) :
    Severed (after (replaceTree e tree) s) := by
  have sheds : Sheds s (after (Session.replaceTree e tree) s) := .replaceTree e tree
  obtain ⟨r, ht, ends⟩ := after_replaceTree e tree s
  have retired : ∀ f, (r.entry f).definitions = [] ∨ r.entry f = s.entry f := by
    intro f
    refine (ht.forgets f).imp_right fun ⟨hf, same⟩ => same.trans ?_
    exact (entry_modify { s with nextNode := (s.numbered tree).2 } e f _).trans (if_neg fun hd => hf hd.1)
  refine h.sheds sheds fun f => ?_
  have whole : (r.entry f).definitions = [] ∨ (r.entry f).removed = (s.entry f).removed ∧
      (r.entry f).definitions = (s.entry f).definitions :=
    (retired f).imp_right fun same => by rw [same]; exact ⟨rfl, rfl⟩
  rw [ends]
  split
  · exact whole
  · next new _ =>
    obtain ⟨more, hm, -⟩ := Coherent.entry_withHead (r.withoutNodeValues (r.moduleScopeOf e)) e
      (r.moduleScopeOf e) new.toBody f
    rw [hm]
    exact whole

theorem removeModule (h : Severed s) (e : EntryId) : Severed (after (removeModule (some e)) s) := by
  rcases after_removeModule e s with ⟨-, ends⟩ | ⟨b, r, hb, ht, close⟩
  · rwa [ends]
  · have books : Severed b := h.of_eq hb.values hb.entries
    have marked : Sheds b (b.withoutEntry e) := .of_values rfl
    have retired : Severed r := by
      refine books.sheds (marked.trans (.of_retires ht) (Nat.le_refl _)) fun f => ?_
      refine (ht.forgets f).imp_right fun ⟨hf, same⟩ => ?_
      have kept : (b.withoutEntry e).entry f = b.entry f :=
        (entry_modify b e f _).trans (if_neg fun hd => hf hd.1)
      rw [same, kept]
      exact ⟨rfl, rfl⟩
    have closed : Still (fun _ => False) r (after (Session.removeModule (some e)) s) :=
      (Still.clearModule _).trans (.of_bookkeeping close)
    exact retired.still closed

/-- Every move keeps definitions and modules severed. -/
theorem move {es : List Event} (h : Severed s) (hs : Sane s) (hm : Move s es t) : Severed t := by
  cases hm with
  | change foreign hst =>
    exact h.steps hs (fun u body hd => (foreign.define u body hd).elim)
      (fun u body _ hd => (foreign.define u body hd).elim) hst
  | addEntry name path => exact h.withEntry name path
  | observe => exact h.of_eq rfl rfl
  | takeNode => exact h.of_eq rfl rfl
  | replaceTree e tree inRange => exact h.replaceTree e tree
  | removeModule e => exact h.removeModule e
  | release =>
    obtain ⟨liveUnits, watchers, metrics, ends⟩ := after_releaseRetired s
    rw [ends]
    exact h.of_eq rfl rfl
  | pass job queue hp dead => exact h.of_eq rfl rfl
  | turn job queue hp alive =>
    have begun : Severed (s.begun queue job.unit) := h.of_eq rfl rfl
    have start := hs.begun hp
    refine begun.steps start (start.licence_sound alive) ?_ (steps_runBody job.unit _)
    rintro u body e ⟨rfl, -⟩ he
    exact (start.coherent.placed _ e alive he).present
  | drop => exact h.of_eq rfl rfl

theorem moves {es : List Event} (h : Severed s) (hs : Sane s) (hm : Moves s es t) : Severed t :=
  hs.moves_induct (P := fun _ t => Severed t) hm h fun _ _ _ _ sane last severed => severed.move sane last

theorem blank (options : Options) (host : Host) (hostRequests : List Request) :
    Severed (blank options host hostRequests) := by
  refine ⟨fun _ _ hc => ?_, fun _ gone => ?_⟩
  · cases hc
  · cases gone

/-- Replacing the tree of a module cuts off its definitions, unless the module was removed: then they have
been forgotten and stay as they are. -/
theorem detaches (h : Severed s) (hc : Coherent s) {e : EntryId} (inRange : e.index < s.entries.size)
    (tree : Option Tree) {v : ValueId} {code : Code} (is : (s.form v).code? = some code)
    (of : code.entry = some e) : ((after (Session.replaceTree e tree) s).form v).code? =
      some (if (s.entry e).removed then code else cut code) := by
  obtain ⟨r, ht, ends⟩ := after_replaceTree e tree s
  let start := s.withTree e (s.numbered tree).1 (s.numbered tree).2
  have form : (after (Session.replaceTree e tree) s).form v = r.form v := by
    rw [ends]
    split <;> rfl
  have definitions : (start.entry e).definitions = (s.entry e).definitions := by
    have look := entry_modify { s with nextNode := (s.numbered tree).2 } e e fun entry =>
      { entry with tree := (s.numbered tree).1, unit := none }
    rw [if_pos ⟨rfl, inRange⟩] at look
    have same := congrArg Entry.definitions look
    exact same
  have here : start.form v = s.form v := rfl
  rw [form, ht.form, definitions, here]
  cases gone : (s.entry e).removed with
  | true =>
    rw [h.removed e gone, if_neg fun hd => List.not_mem_nil hd.2, is]
    rfl
  | false =>
    by_cases mem : v ∈ (s.entry e).definitions
    · rw [if_pos ⟨rfl, mem⟩, code?_mapCode, is]
      rfl
    · rw [if_neg fun hd => mem hd.2, is]
      obtain ⟨f, hf, -, rooted⟩ := hc.code v code is
      obtain rfl : e = f := Option.some.inj (of.symm.trans hf)
      have bodiless : code.body = none := by
        refine Option.eq_none_iff_forall_ne_some.2 fun body hb => ?_
        rcases rooted body hb with out | ⟨defined, -⟩
        · rw [gone] at out
          cases out
        · exact mem defined
      have unitless := h.unit v code is bodiless
      cases code
      cases bodiless
      cases unitless
      rfl

end Severed

/-- Of the units that are retired the session holds those alone that it may, and none waits or watches. -/
structure LetsGo (s : Session) (may : UnitId → Prop) : Prop where
  held : ∀ u ∈ s.liveUnits, s.isAlive u = true ∨ may u
  waiting : ∀ job ∈ s.queue.jobs, s.isAlive job.unit = true
  watching : ∀ watched ∈ s.watchers.toList, ∀ u ∈ watched.2, s.isAlive u = true

private theorem letsGo_releaseRetired (s : Session) : LetsGo (after releaseRetired s) fun _ => False := by
  obtain ⟨metrics, ends⟩ := releaseRetired_lets_go s
  rw [ends]
  constructor
  case held => exact fun u hu => .inl (List.mem_filter.1 hu).2
  case waiting => exact fun job hj => (WorkQueue.mem_keepAlive.1 hj).2
  case watching =>
    intro watched mem u hu
    obtain ⟨⟨name, units⟩, -, kept⟩ := List.mem_filterMap.1 mem
    obtain ⟨live, hl, rfl⟩ := Option.map_eq_some_iff.1 kept
    dsimp only at hl
    split at hl
    · cases hl
    · obtain rfl := Option.some.inj hl
      exact (List.mem_filter.1 hu).2

/-- The retired units of a module are let go at once. -/
theorem letsGo_retireEntry (e : EntryId) (detaching : Bool) (s : Session) :
    LetsGo (after (retireEntry e detaching) s) fun _ => False := by
  let forget : Analysis Unit := do
    let entry := (← get).entry e
    updateEntry e fun entry => { entry with units := [], definitions := [] }
    entry.units.forM retire
    if detaching then entry.definitions.forM detach
  have total : Total forget := by
    refine .read fun s => .bind (.modify _) fun _ => .bind (.forM total_retire _) fun _ => ?_
    exact .ite (.forM total_detach _) (.pure _)
  have run : retireEntry e detaching s = (forget >>= fun _ => releaseRetired >>= fun _ => pure ()) s := by
    cases detaching <;> simp [forget, retireEntry, bind_assoc]
  rw [after, run, ← after, after_seq total, after_ignore]
  exact letsGo_releaseRetired _

private theorem index_lt_of_alive {s : Session} {u : UnitId} (h : s.isAlive u = true) : u.index < s.units.size := by
  refine Nat.lt_of_not_le fun out => ?_
  rw [isAlive, unit_of_le out] at h
  cases h

/-- The unit of a new tree is held, even if its module was removed and it is retired from the beginning. -/
theorem LetsGo.withHead {s : Session} (h : LetsGo s fun _ => False) (e : EntryId) (c : ScopeId) (body : Body) :
    LetsGo (s.withHead e c body) fun u => (s.entry e).removed = true ∧ u = ⟨s.units.size⟩ := by
  have alive : ∀ u, s.isAlive u = true → (s.withHead e c body).isAlive u = true := by
    intro u hu
    rw [isAlive, Coherent.unit_withHead, if_neg (Nat.ne_of_lt (index_lt_of_alive hu))]
    exact hu
  constructor
  case held =>
    intro u hu
    rcases List.mem_append.1 hu with old | new
    · exact .inl (alive u ((h.held u old).resolve_right id))
    · obtain rfl := List.mem_singleton.1 new
      cases gone : (s.entry e).removed with
      | true => exact .inr ⟨rfl, rfl⟩
      | false =>
        refine .inl ?_
        rw [isAlive, Coherent.unit_withHead, if_pos rfl, gone]
        rfl
  case waiting => exact fun job hj => alive _ (h.waiting job hj)
  case watching => exact fun watched mem u hu => alive u (h.watching watched mem u hu)

private theorem total_replaceTree (e : EntryId) (tree : Option Tree) : Total (replaceTree e tree) := by
  intro s
  have ends := replaceTree_run e tree s
  exact ⟨(), ends.trans (congrArg _ (after_of_ok ends).symm)⟩

/-- Replacing the tree of a module lets its units go. -/
theorem letsGo_replaceTree (e : EntryId) (tree : Option Tree) (s : Session) :
    LetsGo (after (replaceTree e tree) s) fun u =>
      (s.entry e).removed = true ∧ tree.isSome = true ∧ u = ⟨s.units.size⟩ := by
  let start := s.withTree e (s.numbered tree).1 (s.numbered tree).2
  let r := s.betweenTrees e tree
  have retired : Retires e true start r := retires_retireEntry e true start
  have gone : LetsGo r fun _ => False := letsGo_retireEntry e true start
  have cleared : LetsGo (r.withoutNodeValues (r.moduleScopeOf e)) fun _ => False :=
    ⟨gone.held, gone.waiting, gone.watching⟩
  have removed : (r.entry e).removed = (s.entry e).removed := by
    have same : (start.entry e).removed = (s.entry e).removed := by
      rw [show start.entry e = _ from entry_modify { s with nextNode := (s.numbered tree).2 } e e _]
      split <;> rfl
    rw [← same, retired.entry]
    split <;> rfl
  rw [after_of_ok (replaceTree_run e tree s)]
  cases tree with
  | none => exact ⟨fun u hu => (cleared.held u hu).imp_right False.elim, cleared.waiting, cleared.watching⟩
  | some tree =>
    have headed := cleared.withHead e (r.moduleScopeOf e) (tree.number.run s.nextNode).1.toBody
    refine ⟨fun u hu => (headed.held u hu).imp_right fun ⟨out, newest⟩ => ?_, headed.waiting, headed.watching⟩
    have size : r.units.size = s.units.size := retired.units
    exact ⟨removed.symm.trans out, rfl, size ▸ newest⟩

/-- Whatever callers do, replacing the tree of a module leaves nothing behind of the trees before: the
functions and classes that were made from them are cut off, and no retired unit is held, waits or watches.
When the module was removed before, its functions and classes stay as they are, and the unit of the new
tree, which is retired from the beginning, is held. -/
theorem replaced_tree_is_let_go {options : Options} {host : Host} {hostRequests : List Request}
    {s : Session} (made : create options host hostRequests = .ok s) (ops : List Operation)
    (fits : Fitting ops s) (e : EntryId) (inRange : e.index < (afterAll ops s).entries.size)
    (tree : Option Tree) :
    ∃ t, replaceTree e tree (afterAll ops s) = .ok () t ∧
      (((afterAll ops s).entry e).removed = false →
        ∀ v code, (t.form v).code? = some code → code.entry = some e →
          code.body = none ∧ code.unit = none) ∧
      (((afterAll ops s).entry e).removed = true →
        ∀ v code, ((afterAll ops s).form v).code? = some code → code.entry = some e →
          (t.form v).code? = some code) ∧
      LetsGo t fun u => ((afterAll ops s).entry e).removed = true ∧ tree.isSome = true ∧
        u = ⟨(afterAll ops s).units.size⟩ := by
  have start : Sane s := (sane_blank options host hostRequests).moves (moves_create made)
  have whole := moves_of_fitting ops start fits
  have coherent := (start.moves whole).coherent
  have severed : Severed (afterAll ops s) :=
    ((Severed.blank options host hostRequests).moves (sane_blank options host hostRequests)
      (moves_create made)).moves start whole
  obtain ⟨⟨⟩, ends⟩ := total_replaceTree e tree (afterAll ops s)
  refine ⟨_, ends, fun present v code hc he => ?_, fun gone v code hc he => ?_, letsGo_replaceTree e tree _⟩
  · obtain ⟨old, is, same⟩ : ∃ old, ((afterAll ops s).form v).code? = some old ∧ old.entry = some e := by
      rcases (Sheds.replaceTree e tree (s := afterAll ops s)).code v with same | cuts
      · exact ⟨code, same.symm.trans hc, he⟩
      · rw [cuts] at hc
        obtain ⟨old, is, rfl⟩ := Option.map_eq_some_iff.1 hc
        exact ⟨old, is, he⟩
    rw [severed.detaches coherent inRange tree is same, present] at hc
    obtain rfl := Option.some.inj hc
    exact ⟨rfl, rfl⟩
  · rw [severed.detaches coherent inRange tree hc he, gone]
    rfl

/-- A module with a function that has been analysed. -/
def analysedFunction : List Operation :=
  let tree : Tree := { mark := {}, body := [.functionDef {} "f" [] [] []] }
  [.addModule "m" "/m.py", .replaceTree ⟨0⟩ tree, .analyzeEntry ⟨0⟩ .never]

/-- The module has a function whose body may run until the tree is replaced. -/
theorem replaced_tree_is_let_go_defining :
    Fitting analysedFunction bare ∧ (((afterAll analysedFunction bare).form ⟨1⟩).code?.any (·.unit.isSome)) = true ∧
      ∃ t, replaceTree ⟨0⟩ none (afterAll analysedFunction bare) = .ok () t ∧
        (∀ v code, (t.form v).code? = some code → code.entry = some ⟨0⟩ →
          code.body = none ∧ code.unit = none) ∧
        ∀ u ∈ t.liveUnits, t.isAlive u = true := by
  obtain ⟨fits, runs, inRange, present⟩ :
      Fitting analysedFunction bare ∧
        (((afterAll analysedFunction bare).form ⟨1⟩).code?.any (·.unit.isSome)) = true ∧
        0 < (afterAll analysedFunction bare).entries.size ∧
        ((afterAll analysedFunction bare).entry ⟨0⟩).removed = false := by
    decide +kernel
  obtain ⟨t, ends, cuts, -, goes⟩ := replaced_tree_is_let_go create_bare analysedFunction fits ⟨0⟩ inRange none
  refine ⟨fits, runs, t, ends, cuts present, fun u hu => (goes.held u hu).resolve_right fun out => ?_⟩
  rw [present] at out
  exact Bool.false_ne_true out.1

/-- After the module was removed, replacing its tree does leave something behind: the function keeps its body
and its unit, and the unit of the new tree is held although it is retired. -/
theorem removed_module_keeps_function :
    let ops := analysedFunction ++ [.removeModule (some ⟨0⟩)]
    let t := after (replaceTree ⟨0⟩ (some { mark := {}, body := [] })) (afterAll ops bare)
    Fitting ops bare ∧ 0 < (afterAll ops bare).entries.size ∧
      ((t.form ⟨1⟩).code?.any fun code =>
        code.entry = some ⟨0⟩ && code.body.isSome && code.unit.isSome) = true ∧
      (t.liveUnits.any fun u => !t.isAlive u) = true := by
  decide +kernel

end Typeflow.Session
