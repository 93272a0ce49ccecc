import Typeflow.Proofs.Identity
import Typeflow.Proofs.Offers.Way

/-! Completion and inference: what is offered below a dotted name against what reading the members of its module
yields. Completion goes down from the first part of the name, inference starts at the module. -/
namespace Typeflow.Session

variable {s t : Session} {base : String} {m : ValueId}

/-- Completions that stand in order under their names. -/
structure Listing (known : NameMap Completion) : Prop where
  ordered : known.Ordered
  named : ∀ pair ∈ known.toList, pair.2.name = pair.1

namespace Listing

variable {known : NameMap Completion}

theorem insert (h : Listing known) (name : String) (type : MemberType) (values : ValueSet) :
    Listing (known.insert name ⟨name, type, values⟩) where
  ordered := h.ordered.insert _ _
  named pair mem := by
    rcases NameMap.mem_insert mem with rfl | old
    · rfl
    · exact h.named pair old

theorem insertNew (h : Listing known) (name : String) (type : MemberType) (values : ValueSet) :
    Listing (known.insertNew name ⟨name, type, values⟩) := by
  rw [NameMap.insertNew]
  split
  · exact h
  · exact h.insert name type values

theorem foldl {α : Type} {put : NameMap Completion → α → NameMap Completion} (h : Listing known)
    (puts : ∀ known a, Listing known → Listing (put known a)) (items : List α) : Listing (items.foldl put known) := by
  induction items generalizing known with
  | nil => exact h
  | cons a rest ih => exact ih (puts known a h)

/-- Names that have modules are listed as children. -/
theorem of_children {children : NameMap ValueId} (h : children.Ordered) :
    Listing ⟨children.toList.map fun pair => (pair.1, ⟨pair.1, .module, .single pair.2⟩)⟩ where
  ordered := List.pairwise_map.2 h
  named := by
    intro pair mem
    obtain ⟨child, -, rfl⟩ := List.mem_map.1 mem
    rfl

private theorem mem_values (h : Listing known) {c : Completion} : c ∈ known.values ↔ known.find? c.name = some c := by
  rw [← h.ordered.mem_iff, NameMap.values, List.mem_map]
  constructor
  · rintro ⟨pair, mem, rfl⟩
    rw [h.named pair mem]
    exact mem
  · exact fun mem => ⟨_, mem, rfl⟩

/-- What is listed under a name is what is found there. -/
theorem exists_iff (h : Listing known) {name : String} {P : Completion → Prop} :
    (∃ c ∈ known.values, c.name = name ∧ P c) ↔ ∃ c, known.find? name = some c ∧ P c := by
  constructor
  · rintro ⟨c, mem, rfl, hc⟩
    exact ⟨c, h.mem_values.1 mem, hc⟩
  · rintro ⟨c, found, hc⟩
    have spelt : c.name = name := h.named _ (NameMap.mem_of_find? found)
    exact ⟨c, h.mem_values.2 (by rw [spelt]; exact found), spelt, hc⟩

private theorem ascending (h : Listing known) : (known.values.map (·.name)).Pairwise (· < ·) := by
  rw [NameMap.values, List.map_map, List.pairwise_map]
  refine h.ordered.imp_of_mem fun {a b} ha hb before => ?_
  rw [Function.comp, Function.comp, h.named a ha, h.named b hb]
  exact before

end Listing

/-- The children of any value that has some stand in order. -/
theorem ordered_children {depth : Nat} {children : NameMap ValueId} (run : childrenWithin depth m s = .ok children t) :
    children.Ordered := by
  have table : ∀ {name : String} {r : Session}, childrenInTable name r = .ok children t → children.Ordered := by
    intro name r run
    rw [childrenInTable, read_run] at run
    obtain ⟨found, q, -, rest⟩ := bind_eq_ok run
    cases rest
    exact NameMap.Ordered.foldl_insert found (fun _ v => v) NameMap.ordered_empty
  cases depth with
  | zero => cases run
  | succ depth =>
    rw [childrenWithin, read_run] at run
    cases hm : (s.value m).form with
    | multiple members =>
      rw [hm] at run
      obtain ⟨found, q, -, rest⟩ := bind_eq_ok run
      cases rest
      exact NameMap.Ordered.foldl_insertNew _ (fun _ v => v) NameMap.ordered_empty
    | module | builtinModule =>
      rw [hm] at run
      exact table run
    | _ =>
      rw [hm] at run
      cases run
      exact NameMap.ordered_empty

/-- The children that are loaded, and behind them what the table has besides. -/
def knownBelow (s : Session) (base : String) (children : NameMap ValueId) : NameMap Completion :=
  (s.childrenNamed base).foldl
    (fun known pair => known.insertNew pair.1 ⟨pair.1, .module, .single (s.ref pair.2).module⟩)
    ⟨children.toList.map fun pair => (pair.1, ⟨pair.1, .module, .single pair.2⟩)⟩

private theorem listing_knownBelow {children : NameMap ValueId} (h : children.Ordered) (s : Session) (base : String) :
    Listing (s.knownBelow base children) :=
  (Listing.of_children h).foldl (fun _ _ listing => listing.insertNew _ _ _) _

private theorem offersBelow_none (name : String) (members : Bool) (s : Session) :
    offersBelow none name members s = .ok (s.knownBelow name {}) s := rfl

/-- Members stand before the children of their name. -/
theorem offersBelow_some (m : ValueId) (name : String) (members : Bool) (s : Session) :
    offersBelow (some m) name members s = (childModules m >>= fun children => get >>= fun r =>
      allMembers m >>= fun found => get >>= fun q =>
        pure ((found.toList.filter fun pair => members || q.holdsModule pair.2).foldl
          (fun known pair => known.insert pair.1 ⟨pair.1, q.memberTypeOf pair.2, pair.2⟩)
          (r.knownBelow name children))) s := rfl

private theorem listing_offersBelow {module : Found} {name : String} {members : Bool} {known : NameMap Completion}
    (run : offersBelow module name members s = .ok known t) : Listing known := by
  cases module with
  | none =>
    rw [offersBelow_none] at run
    cases run
    exact listing_knownBelow NameMap.ordered_empty s name
  | some m =>
    rw [offersBelow_some] at run
    obtain ⟨children, r, loads, run⟩ := bind_eq_ok run
    rw [read_run] at run
    obtain ⟨found, q, -, run⟩ := bind_eq_ok run
    cases run
    rw [childModules, read_run] at loads
    exact (listing_knownBelow (ordered_children loads) r name).foldl (fun _ _ h => h.insert _ _ _) _

/-- Whatever is offered is listed in order, each name once. -/
theorem ascending_membersOffered {names : List String} {members : Bool} {offered : List Completion}
    (run : membersOffered names members s = .ok offered t) : (offered.map (·.name)).Pairwise (· < ·) := by
  cases names with
  | nil =>
    cases run
    exact .nil
  | cons first rest =>
    obtain ⟨module, r, -, run⟩ := bind_eq_ok run
    obtain ⟨known, q, below, run⟩ := bind_eq_ok run
    cases run
    exact (listing_offersBelow below).ascending

section Table

/-- What is offered for a name of the table that stands a part below another one. -/
def childOffer? (s : Session) (base name : String) : Option Completion :=
  if Text.IsPart name then
    (s.peek? (base ++ "." ++ name)).map fun r => ⟨name, .module, .single (s.ref r).module⟩
  else none

private theorem lookupPair_childrenNamed (celled : Celled s) (base name : String) :
    NameMap.lookupPair name (s.childrenNamed base) =
      if Text.IsPart name then s.peek? (base ++ "." ++ name) else none := by
  have valid : s.validRefs = s.modules.toList := by
    refine List.filter_eq_self.2 fun pair mem => ?_
    have bound : s.peek? pair.1 = some pair.2 := celled.ordered.find?_of_mem mem
    exact (celled.valid pair.2 (celled.placed _ _ bound)).2 ⟨_, bound⟩
  have loop : ∀ pairs : List (String × RefId),
      NameMap.lookupPair name (pairs.filterMap fun pair => (Text.childName? base pair.1).map (·, pair.2)) =
        if Text.IsPart name then NameMap.lookupPair (base ++ "." ++ name) pairs else none := by
    intro pairs
    induction pairs with
    | nil =>
      split
      · rfl
      · rfl
    | cons pair rest ih =>
      obtain ⟨key, r⟩ := pair
      rw [NameMap.lookupPair]
      cases child : Text.childName? base key with
      | none =>
        rw [List.filterMap_cons_none (by rw [child]; rfl), ih]
        split
        · next isPart =>
          refine (if_neg fun same => ?_).symm
          rw [Text.childName?_eq_some.2 ⟨same.symm, isPart⟩] at child
          cases child
        · rfl
      | some part =>
        obtain ⟨rfl, isPart⟩ := Text.childName?_eq_some.1 child
        rw [List.filterMap_cons_some (b := (part, r)) (by rw [child]; rfl), NameMap.lookupPair, ih]
        by_cases same : name = part
        · rw [if_pos same, if_pos (same ▸ isPart), if_pos (by rw [same])]
        · have apart : base ++ "." ++ name ≠ base ++ "." ++ part := fun spelt => same (String.append_right_inj _ |>.1 spelt)
          rw [if_neg same, if_neg apart]
  rw [childrenNamed, valid]
  exact loop _

/-- Children that are loaded show first, and behind them what else the table has. -/
theorem find?_knownBelow (celled : Celled s) {children : NameMap ValueId}
    (held : ∀ name v, children.find? name = some v → Text.IsPart name ∧ s.held? (base ++ "." ++ name) = some v)
    (name : String) : (s.knownBelow base children).find? name = s.childOffer? base name := by
  have loaded : NameMap.lookupPair name
      (children.toList.map fun pair => (pair.1, (⟨pair.1, .module, .single pair.2⟩ : Completion))) =
        (children.find? name).map fun v => ⟨name, .module, .single v⟩ :=
    NameMap.lookupPair_map (fun name v => (⟨name, .module, .single (some v)⟩ : Completion)) _
  have folded := NameMap.find?_foldl_insertNew (s.childrenNamed base)
    (fun name r => (⟨name, .module, .single (s.ref r).module⟩ : Completion))
    ⟨children.toList.map fun pair => (pair.1, ⟨pair.1, .module, .single pair.2⟩)⟩ name
  refine folded.trans ?_
  rw [NameMap.find?, loaded, lookupPair_childrenNamed celled, childOffer?]
  cases child : children.find? name with
  | none =>
    rw [Option.map_none, Option.none_or]
    split
    · rfl
    · rfl
  | some v =>
    obtain ⟨isPart, holds⟩ := held name v child
    obtain ⟨r, bound, module⟩ := Option.bind_eq_some_iff.1 holds
    simp only [if_pos isPart, bound, Option.map_some, Option.some_or, module]

end Table

section Members

/-- A module of the project stays one and keeps its name. -/
theorem MayLoad.module (h : MayLoad s t) {p : ProjectModule} (hm : s.form m = .module p) :
    (∃ q, t.form m = .module q) ∧ (t.value m).name = (s.value m).name := by
  have there : m.index < s.values.size := index_lt_of_form (by rw [hm]; nofun)
  have kind : (t.form m).kind = .module := by
    rw [h.cells.kind m there, hm]
    rfl
  refine ⟨?_, h.titles.name m there⟩
  cases ht : t.form m with
  | module q => exact ⟨q, rfl⟩
  | _ =>
    rw [ht] at kind
    cases kind

/-- All members of a module of the project are its names that are bound. -/
theorem allMembers_module {p : ProjectModule} (hm : s.form m = .module p) :
    allMembers m s = .ok ((s.scope p.scope).names.filterMap fun _ x =>
      if (s.var x).isBound then some (s.types x) else none) s := by
  obtain ⟨depth, deep⟩ : ∃ depth, s.memberDepth = depth + 1 := ⟨_, Nat.succ_mul _ _⟩
  rw [allMembers, read_run, deep, allMembersWithin, read_run, show (s.value m).form = .module p from hm]
  rfl

private theorem find?_members (sorted : s.Alphabetical) {p : ProjectModule} (hm : s.form m = .module p) (name : String) :
    ((s.scope p.scope).names.filterMap fun _ x => if (s.var x).isBound then some (s.types x) else none).find? name =
      (s.boundIn? m name).map s.types := by
  rw [(sorted p.scope).find?_filterMap, boundIn?, hm]
  dsimp only
  rw [findName?]
  cases (s.scope p.scope).names.find? name with
  | none => rfl
  | some x => cases bound : (s.var x).isBound <;> simp [bound]

/-- What is offered under a name is the member if the name is bound, and otherwise what the table has below. -/
theorem offersBelow_module (celled : Celled s) (sorted : s.Alphabetical) {p : ProjectModule} (hm : s.form m = .module p) :
    ∃ known t, offersBelow (some m) (s.value m).name true s = .ok known t ∧ MayLoad s t ∧
      (∀ name, Text.IsPart name → t.Fetched ((s.value m).name ++ "." ++ name)) ∧
      ∀ name, known.find? name =
        ((t.boundIn? m name).map fun x => ⟨name, t.memberTypeOf (t.types x), t.types x⟩).or
          (t.childOffer? (s.value m).name name) := by
  obtain ⟨children, t, loads, kept, fetched, held⟩ := childModules_run celled hm
  obtain ⟨⟨q, hq⟩, -⟩ := kept.module hm
  let found := (t.scope q.scope).names.filterMap fun _ x => if (t.var x).isBound then some (t.types x) else none
  have finds : allMembers m t = .ok found t := allMembers_module hq
  let known := found.toList.foldl (fun known pair => known.insert pair.1 ⟨pair.1, t.memberTypeOf pair.2, pair.2⟩)
    (t.knownBelow (s.value m).name children)
  refine ⟨known, t, ?_, kept, fetched, fun name => ?_⟩
  · rw [offersBelow_some, bind_of_ok loads, read_run, bind_of_ok finds, read_run]
    simp only [Bool.true_or, List.filter_true]
    rfl
  · have all := NameMap.find?_foldl_insert found.toList
      (fun name values => (⟨name, t.memberTypeOf values, values⟩ : Completion)) (t.knownBelow (s.value m).name children)
      ((kept.sorts sorted q.scope).filterMap _) name
    refine all.trans ?_
    have loaded : ∀ name v, children.find? name = some v →
        Text.IsPart name ∧ t.held? ((s.value m).name ++ "." ++ name) = some v := by
      intro name v child
      rw [held, Option.ite_none_right_eq_some] at child
      exact child
    rw [find?_knownBelow (celled.same kept.cells) loaded, ← NameMap.find?, find?_members (kept.sorts sorted) hq,
      Option.map_map]
    rfl

end Members

/-- Completion lists below a module what reading the members of the module yields, and the names of all modules that
the table has there. -/
structure Agrees (s : Session) (m : ValueId) (base : String) (offered : List Completion) : Prop where
  listed : ∀ name, Text.IsPart name → ((∃ c ∈ offered, c.name = name) ↔
    (s.boundIn? m name).isSome = true ∨ (s.peek? (base ++ "." ++ name)).isSome = true)
  read : ∀ c ∈ offered, Text.IsPart c.name → ∀ site, ∃ t, answer m (.member c.name) site s = .ok c.values t
  nothing : ∀ name, Text.IsPart name → (∀ c ∈ offered, c.name ≠ name) →
    ∀ site, ∃ t, answer m (.member name) site s = .ok .empty t

private theorem agrees_offersBelow (celled : Celled s) (sorted : s.Alphabetical) {p : ProjectModule} (hm : s.form m = .module p) :
    ∃ known t, offersBelow (some m) (s.value m).name true s = .ok known t ∧ MayLoad s t ∧
      t.Agrees m (s.value m).name known.values := by
  obtain ⟨known, t, run, kept, fetched, finds⟩ := offersBelow_module celled sorted hm
  have listing : Listing known := listing_offersBelow run
  obtain ⟨⟨q, hq⟩, title⟩ := kept.module hm
  have yields : ∀ name, Text.IsPart name → ∀ site, ∃ r, answer m (.member name) site t = .ok
      (((known.find? name).map (·.values)).getD .empty) r := by
    intro name isPart site
    obtain ⟨r, reads⟩ := answer_module (s := t) hq (by rw [title]; exact fetched name isPart) site
    refine ⟨r, reads.trans ?_⟩
    rw [title, finds, childOffer?, if_pos isPart, held?]
    cases t.boundIn? m name with
    | some x => rfl
    | none =>
      cases t.peek? ((s.value m).name ++ "." ++ name) with
      | none => rfl
      | some r => rfl
  refine ⟨known, t, run, kept, fun name isPart => ?_, fun c mem isPart site => ?_, fun name isPart absent site => ?_⟩
  · have found : (∃ c ∈ known.values, c.name = name) ↔ (known.find? name).isSome = true := by
      have same : (∃ c ∈ known.values, c.name = name ∧ True) ↔ ∃ c, known.find? name = some c ∧ True :=
        listing.exists_iff
      simpa [Option.isSome_iff_exists] using same
    rw [found, finds, childOffer?, if_pos isPart, Option.isSome_or, Option.isSome_map, Option.isSome_map, Bool.or_eq_true]
  · have reads := yields c.name isPart site
    rw [listing.mem_values.1 mem] at reads
    exact reads
  · have reads := yields name isPart site
    have free : known.find? name = none := by
      rw [Option.eq_none_iff_forall_ne_some]
      intro c found
      obtain ⟨d, mem, spelt, -⟩ := (listing.exists_iff (P := fun _ => True)).2 ⟨c, found, trivial⟩
      exact absent d mem spelt
    rw [free] at reads
    exact reads

/-- The modules on the way carry their names if those of the host do, as those of the project always do. -/
private theorem carry_of_hosted (celled : Celled s) (titled : s.Titled) (loads : MayLoad s r) {part : String}
    {rest : List String} (hosted : ∀ names m, names <+: rest →
      r.loadedModule? (Text.joinDots (part :: names)) = some m → (r.form m).kind ≠ .module →
        (r.value m).name = Text.joinDots (part :: names)) : Carry r [part] rest := by
  intro names m below here
  by_cases kind : (r.form m).kind = .module
  · obtain ⟨c, bound, holds, -⟩ := loadedModule?_eq_some.1 here
    have stands := (projectName_of_same celled loads.cells).1 ⟨⟨c, bound, holds⟩, kind⟩
    obtain ⟨q, -, there⟩ := stands.1
    exact (loads.titles.name m (celled.there q m there)).trans (titled _ m stands)
  · exact hosted names m below here kind

/-- Where no module is found, what the table has below the name is offered. -/
private theorem offered_of_missing (celled : Celled r) (base name : String) (values : ValueSet) :
    (∃ c ∈ (r.knownBelow base {}).values, c.name = name ∧ c.values = values) ↔
      Text.IsPart name ∧ ∃ cell, r.peek? (base ++ "." ++ name) = some cell ∧ values = .single (r.ref cell).module := by
  have listing : Listing (r.knownBelow base {}) := listing_knownBelow NameMap.ordered_empty _ _
  have bare : ∀ name v, ({} : NameMap ValueId).find? name = some v →
      Text.IsPart name ∧ r.held? (base ++ "." ++ name) = some v :=
    fun name _ found => nomatch (NameMap.find?_empty name).symm.trans found
  have found : (∃ c ∈ (r.knownBelow base {}).values, c.name = name ∧ c.values = values) ↔
      ∃ c, (r.knownBelow base {}).find? name = some c ∧ c.values = values :=
    listing.exists_iff
  rw [found, find?_knownBelow celled bare, childOffer?]
  by_cases isPart : Text.IsPart name
  · rw [if_pos isPart, and_iff_right isPart]
    simp only [Option.map_eq_some_iff]
    constructor
    · rintro ⟨c, ⟨q, bound, rfl⟩, rfl⟩
      exact ⟨q, bound, rfl⟩
    · rintro ⟨q, bound, rfl⟩
      exact ⟨_, ⟨q, bound, rfl⟩, rfl⟩
  · simp [isPart]

/-- After every history, completion lists what it offers in order and each name once. On its way down to a module it
loads what it passes. The host's modules that it passes are taken to be called by the names they stand under, as those
of the project always are. Then, below the name of a module of the project, completion agrees with what reading the
members of the module yields, if all packages above it have turned out to be modules. If one has not, completion does
not find the module, and offers the modules that the table has below the name and nothing else. -/
theorem completion_agrees {options : Options} {host : Host} {hostRequests : List Request} {first : Session}
    (made : create options host hostRequests = .ok first) {ops : List Operation} (fits : Fitting ops first) :
    let s := afterAll ops first
    (∀ name offered t, moduleOffered name s = .ok offered t → (offered.map (·.name)).Pairwise (· < ·)) ∧
    ∀ part rest, (∀ p ∈ part :: rest, Text.IsPart p) →
      let base := Text.joinDots (part :: rest)
      let r := after (moduleAt part rest) s
      MayLoad s r ∧
      ((∀ names m, names <+: rest → r.loadedModule? (Text.joinDots (part :: names)) = some m →
        (r.form m).kind ≠ .module → (r.value m).name = Text.joinDots (part :: names)) →
      ((∀ names, names <+: rest → s.Fetched (Text.joinDots (part :: names))) → r = s) ∧
      (∀ m, s.ProjectName base m →
        (∀ names, names <+: rest → r.loadedModule? (Text.joinDots (part :: names)) ≠ none) →
        ∃ offered t, moduleOffered base s = .ok offered t ∧ t.ProjectName base m ∧ t.Agrees m base offered) ∧
      ((∃ names, names <+: rest ∧ r.loadedModule? (Text.joinDots (part :: names)) = none) →
        ∃ offered, moduleOffered base s = .ok offered r ∧
          ∀ name values, (∃ c ∈ offered, c.name = name ∧ c.values = values) ↔ Text.IsPart name ∧
            ∃ cell, r.peek? (base ++ "." ++ name) = some cell ∧ values = .single (r.ref cell).module)) := by
  intro s
  have celled : Celled s := (Turnover.afterAll (celled_create made) ops).celled
  have titled : s.Titled := titled_afterAll made ops
  refine ⟨fun name offered t run => ascending_membersOffered run, fun part rest parts => ?_⟩
  obtain ⟨found, r, walk, loads, ends⟩ := moduleAt_ends celled part rest
  intro base
  rw [after_of_ok walk]
  refine ⟨loads, fun hosted => ?_⟩
  have celledToo : Celled r := celled.same loads.cells
  obtain ⟨⟨whole, broken⟩, still⟩ := ends (carry_of_hosted celled titled loads hosted)
  have rule : moduleOffered base s = (do return (← offersBelow found base true).values : Analysis (List Completion)) r := by
    rw [moduleOffered, Text.items_joinDots parts]
    exact bind_of_ok walk
  refine ⟨still, fun m stands all => ?_, fun ⟨names, below, free⟩ => ?_⟩
  · obtain ⟨p, hm⟩ : ∃ p, r.form m = .module p := by
      have kind := ((projectName_of_same celled loads.cells).2 stands).2
      cases hm : r.form m with
      | module p => exact ⟨p, rfl⟩
      | _ =>
        rw [hm] at kind
        cases kind
    have arrived : found = some m :=
      (whole all).trans (((projectName_of_same celled loads.cells).2 stands).loaded celledToo)
    have sorted : r.Alphabetical := loads.sorts (alphabetical_afterAll made fits)
    obtain ⟨known, t, offers, more, agrees⟩ := agrees_offersBelow celledToo sorted hm
    obtain ⟨q, -, there⟩ := stands.1
    rw [loads.titles.name m (celled.there q m there), titled _ _ stands] at offers agrees
    refine ⟨known.values, t, ?_, (projectName_of_same celled (loads.trans more).cells).2 stands, agrees⟩
    rw [rule, arrived, bind_of_ok offers]
    rfl
  · refine ⟨(r.knownBelow base {}).values, ?_, offered_of_missing celledToo base⟩
    rw [rule, broken names below free, bind_of_ok (offersBelow_none _ _ _)]
    rfl

/-- A host with a package. -/
def packageHost : Host where
  objects := #[⟨.module "a" {}, .module⟩]
  importable := ⟨[("a", ⟨0⟩)]⟩
  moduleNames := ["a"]

/-- A module below the package of the host, and one below the module. -/
def nestedModules : List Operation :=
  [.addModule "a.b" "/a/b.py",
    .replaceTree ⟨0⟩ (some ⟨{}, [.assign {} [.name {} "y"] (.literal {} (.int 1))]⟩), .analyzeEntry ⟨0⟩ .never,
    .addModule "a.b.c" "/a/b/c.py"]

/-- The module is found, though its package is not loaded when it is asked for. -/
theorem completion_agrees_nested :
    let s := afterAll nestedModules (after load (blank {} packageHost []))
    ¬ s.Fetched "a" ∧ ∃ offered t, moduleOffered "a.b" s = .ok offered t ∧ t.Agrees ⟨0⟩ "a.b" offered := by
  intro s
  let r := after (moduleAt "a" ["b"]) s
  obtain ⟨fits, idle, inner, innerCell, kind, outer, outerName, there⟩ :
      Fitting nestedModules (after load (blank {} packageHost [])) ∧
        (s.peek? "a" = some ⟨0⟩ ∧ (s.ref ⟨0⟩).loaded = false) ∧
        s.peek? "a.b" = some ⟨1⟩ ∧ (s.ref ⟨1⟩).module = some ⟨0⟩ ∧ (s.form ⟨0⟩).kind = .module ∧
        r.loadedModule? "a" = some ⟨3⟩ ∧ (r.value ⟨3⟩).name = "a" ∧
        (r.loadedModule? "a.b" = some ⟨0⟩ ∧ (r.form ⟨0⟩).kind = .module) := by
    decide +kernel
  have parts : ∀ p ∈ ["a", "b"], Text.IsPart p := by decide
  have below : ∀ names, names <+: ["b"] → names = [] ∨ names = ["b"] := by
    intro names h
    rcases List.prefix_cons_iff.1 h with rfl | ⟨rest, rfl, later⟩
    · exact .inl rfl
    · exact .inr (by rw [List.prefix_nil.1 later])
  obtain ⟨-, whole, -⟩ := ((completion_agrees (create_unasked {} packageHost) fits).2 "a" ["b"] parts).2 (by
    intro names m h here kind
    rcases below names h with rfl | rfl
    · obtain rfl : ⟨3⟩ = m := Option.some.inj (outer.symm.trans here)
      exact outerName
    · obtain rfl : ⟨0⟩ = m := Option.some.inj (there.1.symm.trans here)
      exact absurd there.2 kind)
  obtain ⟨offered, t, run, -, agrees⟩ := whole ⟨0⟩ ⟨⟨⟨1⟩, inner, innerCell⟩, kind⟩ fun names h => by
    rcases below names h with rfl | rfl
    · exact fun none => nomatch outer.symm.trans none
    · exact fun none => nomatch there.1.symm.trans none
  refine ⟨fun fetched => ?_, offered, t, run, agrees⟩
  have loaded := fetched ⟨0⟩ idle.1
  rw [idle.2] at loaded
  cases loaded

/-- A module whose package is none. -/
def strayModule : List Operation :=
  [.addModule "ns.m" "/ns/m.py", .replaceTree ⟨0⟩ (some ⟨{}, [.assign {} [.name {} "x"] (.literal {} (.int 1))]⟩),
    .analyzeEntry ⟨0⟩ .never]

/-- Nothing is offered below the module, though a name of it has a value. -/
theorem completion_misses_stray_module :
    let s := afterAll strayModule bare
    s.peek? "ns.m" = some ⟨0⟩ ∧ (s.ref ⟨0⟩).module = some ⟨0⟩ ∧ (s.form ⟨0⟩).kind = .module ∧
      (yield? (answer ⟨0⟩ (.member "x") ⟨default, ⟨0⟩⟩) s).map (·.isEmpty) = some false ∧
      (yield? (moduleOffered "ns.m") s).map (·.map (·.name)) = some [] := by
  decide +kernel

end Typeflow.Session
