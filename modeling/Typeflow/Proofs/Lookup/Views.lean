import Typeflow.Proofs.Lookup
import Typeflow.Proofs.Offers.Paths
import Typeflow.Proofs.Order
import Typeflow.Proofs.Saturation

/-! The search for a name among a class and its bases, and the list of all their names. The search stops at the first
class that has the name, and the list is put together from the bases upwards; both go past a class that is on their
way already. -/
namespace Typeflow

namespace ValueSet

/-- What a table of members holds for a name: values, or nothing where there are none. -/
def shown (values : ValueSet) : Option ValueSet := if values.isEmpty then none else some values

private theorem shown_empty : empty.shown = none := rfl

private theorem shown_of_not_isEmpty {values : ValueSet} (h : values.isEmpty = false) : values.shown = some values := by
  rw [shown, h]
  rfl

private theorem shown_of_isEmpty {values : ValueSet} (h : values.isEmpty = true) : values.shown = none := by
  rw [shown, h]
  rfl

private theorem eq_empty_of_isEmpty {values : ValueSet} (few : values ≠ top) (none : values.isEmpty = true) :
    values = empty := by
  cases values with
  | top => exact absurd rfl few
  | of values => exact congrArg of (ValueList.ext_mem fun v => by rw [show values.toList = [] from List.isEmpty_iff.1 none]; rfl)

private theorem join_ne_top {a b : ValueSet} (ha : a ≠ top) (hb : b ≠ top) : a.join b ≠ top := by
  cases a with
  | top => exact absurd rfl ha
  | of x =>
    cases b with
    | top => exact absurd rfl hb
    | of y => rintro ⟨⟩

private theorem foldl_join_ne_top {α : Type} {items : List α} {f : α → ValueSet} (few : ∀ a ∈ items, f a ≠ top)
    {acc : ValueSet} (h : acc ≠ top) : items.foldl (fun acc a => acc.join (f a)) acc ≠ top := by
  induction items generalizing acc with
  | nil => exact h
  | cons a rest ih =>
    obtain ⟨first, few⟩ := List.forall_mem_cons.1 few
    exact ih few (join_ne_top h first)

/-- What is shown for the union of two sets is made of what is shown for each. -/
theorem shown_join {a b : ValueSet} (ha : a ≠ top) (hb : b ≠ top) :
    (a.join b).shown = (b.shown.map (a.shown.getD empty).join).or a.shown := by
  cases none : b.isEmpty with
  | true => rw [eq_empty_of_isEmpty hb none, Session.join_empty, shown_empty, Option.map_none, Option.none_or]
  | false =>
    have known : a.shown.getD empty = a := by
      cases bare : a.isEmpty with
      | true => rw [eq_empty_of_isEmpty ha bare]; rfl
      | false => rw [shown_of_not_isEmpty bare]; rfl
    have more : (a.join b).isEmpty = false := by
      rw [isEmpty, Bool.eq_false_iff, Ne, List.isEmpty_iff] at none ⊢
      obtain ⟨v, mem⟩ := List.exists_mem_of_ne_nil _ none
      exact List.ne_nil_of_mem ((mem_items_join (join_ne_top ha hb)).2 (.inr mem))
    rw [shown_of_not_isEmpty more, shown_of_not_isEmpty none, known, Option.map_some, Option.some_or]

end ValueSet

namespace NameMap

/-- The table holds for each name what the view shows for it. -/
structure Tells (members : NameMap ValueSet) (view : String → ValueSet) : Prop where
  ordered : members.Ordered
  shows : ∀ name, members.find? name = (view name).shown

namespace Tells

variable {α : Type} {all more : NameMap ValueSet} {a b : String → ValueSet}

theorem nothing : Tells {} fun _ => .empty := ⟨ordered_empty, fun _ => rfl⟩

/-- Two tables are joined by joining what they hold for each name. -/
theorem joinMembers (h : all.Tells a) (g : more.Tells b) (ha : ∀ name, a name ≠ .top) (hb : ∀ name, b name ≠ .top) :
    (Session.joinMembers all more).Tells fun name => (a name).join (b name) := by
  refine ⟨h.ordered.foldl_update _ fun all name values => (all.findD name .empty).join values, fun name => ?_⟩
  rw [ValueSet.shown_join (ha name) (hb name), ← h.shows, ← g.shows]
  exact find?_foldl_update more.toList (fun _ old values => (old.getD .empty).join values) all g.ordered name

theorem foldl {items : List α} {views : α → String → ValueSet} {tables : List (NameMap ValueSet)}
    (hold : List.Forall₂ (fun item table => table.Tells (views item)) items tables)
    (few : ∀ item name, views item name ≠ .top) (h : all.Tells a) (ha : ∀ name, a name ≠ .top) :
    (tables.foldl Session.joinMembers all).Tells fun name =>
      items.foldl (fun acc item => acc.join (views item name)) (a name) := by
  induction hold generalizing all a with
  | nil => exact h
  | cons first _ ih =>
    exact ih (h.joinMembers first ha (few _)) fun name => ValueSet.join_ne_top (ha name) (few _ name)

/-- What one table holds for a name goes before what the other one does. -/
theorem override (h : all.Tells a) (g : more.Tells b) :
    (more.toList.foldl (fun all pair => all.insert pair.1 pair.2) all).Tells fun name =>
      if (b name).isEmpty then a name else b name := by
  refine ⟨h.ordered.foldl_insert _ fun _ values => values, fun name => ?_⟩
  have found := find?_foldl_insert more.toList (fun _ values => values) all g.ordered name
  rw [found, Option.map_id', show lookupPair name more.toList = (b name).shown from g.shows name, h.shows]
  cases none : (b name).isEmpty with
  | true =>
    rw [ValueSet.shown_of_isEmpty none]
    rfl
  | false =>
    rw [ValueSet.shown_of_not_isEmpty none]
    exact (ValueSet.shown_of_not_isEmpty none).symm

end Tells

end NameMap

namespace Session

variable {α β : Type} {s t r : Session} {name : String} {marked : Finset ValueId} {depth : Nat} {v : ValueId}

/-- The bases of a class. -/
def basesOf (s : Session) (v : ValueId) : List ValueId :=
  match s.form v with
  | .userClass c => (s.types c.bases).items
  | _ => []

/-- The value is a class, and so are its bases, their bases and so on. They may have bases in common and may be
their own bases. -/
def OnlyClasses (s : Session) (v : ValueId) : Prop :=
  ∀ w, Relation.ReflTransGen (fun v w => w ∈ s.basesOf v) v w → (s.form w).kind = .userClass

/-- Some classes that have no other bases than one another. -/
theorem onlyClasses_of_mem {known : List ValueId} (classes : ∀ w ∈ known, (s.form w).kind = .userClass)
    (closed : ∀ w ∈ known, ∀ x ∈ s.basesOf w, x ∈ known) (mem : v ∈ known) : s.OnlyClasses v := by
  intro w path
  have reached : w ∈ known := by
    induction path with
    | refl => exact mem
    | tail _ step ih => exact closed _ ih _ step
  exact classes w reached

theorem OnlyClasses.userClass (h : s.OnlyClasses v) : ∃ c, s.form v = .userClass c := by
  have kind := h v .refl
  cases hv : s.form v with
  | userClass c => exact ⟨c, rfl⟩
  | _ =>
    rw [hv] at kind
    cases kind

theorem OnlyClasses.base (h : s.OnlyClasses v) {c : UserClass} (hv : s.form v = .userClass c) {w : ValueId}
    (mem : w ∈ (s.types c.bases).items) : s.OnlyClasses w :=
  fun x path => h x (.head (by rwa [basesOf, hv]) path)

private theorem ownTypes_of_reads (h : Reads s t) (c : UserClass) (name : String) : t.ownTypes c name = s.ownTypes c name := by
  induction h with
  | refl => rfl
  | @tail q r _ step ih =>
    rw [← ih]
    rcases step with ⟨d, label, rfl⟩ | ⟨x, u, rfl⟩
    · have fills : Fills q (after (nameIn d label) q) := .nameIn d label q
      rcases after_nameIn d label q with ends | ⟨free, ends⟩
      · rw [ends]
      · rw [ends] at fills ⊢
        rw [ownTypes, findName?_withName, ownTypes]
        split_ifs with made
        · obtain ⟨⟨rfl, -⟩, rfl⟩ := made
          rw [free]
          exact (fills.types _).trans (Fills.types_of_le (Nat.le_refl _))
        · cases q.findName? c.scope name with
          | some x => exact fills.types x
          | none => rfl
    · have same := (Peeks.addReader x u q).types
      unfold ownTypes
      rw [show (after (addReader x u) q).findName? c.scope name = q.findName? c.scope name from rfl]
      cases q.findName? c.scope name with
      | some y => exact same y
      | none => rfl

theorem Sorts.of_reads (h : Reads s t) : Sorts s t := by
  induction h with
  | refl => exact .refl s
  | tail _ step ih =>
    rcases step with ⟨c, name, rfl⟩ | ⟨x, u, rfl⟩
    · exact ih.trans (.nameIn c name _)
    · exact ih.trans (.of_scopes rfl)

/-- What a class has under a name while some classes are on the way to it: its own types, or what its bases have
together unless it is on the way itself. -/
def classView (s : Session) (name : String) : Nat → Finset ValueId → ValueId → ValueSet
  | 0, _, _ => .empty
  | depth + 1, marked, v =>
    match s.form v with
    | .userClass c =>
      if (s.ownTypes c name).isEmpty then
        if c.resolving || decide (v ∈ marked) then .empty
        else (s.types c.bases).items.foldl
          (fun acc w => acc.join (s.classView name depth (insert v marked) w)) .empty
      else s.ownTypes c name
    | _ => .empty

private theorem classView_of_class {c : UserClass} (hv : s.form v = .userClass c) :
    s.classView name (depth + 1) marked v =
      if (s.ownTypes c name).isEmpty then
        if c.resolving || decide (v ∈ marked) then .empty
        else (s.types c.bases).items.foldl
          (fun acc w => acc.join (s.classView name depth (insert v marked) w)) .empty
      else s.ownTypes c name := by
  rw [classView, hv]

private theorem classView_ne_top : s.classView name depth marked v ≠ .top := by
  induction depth generalizing marked v with
  | zero => rintro ⟨⟩
  | succ depth ih =>
    rw [classView]
    split
    · next c hv =>
      split
      · split
        · rintro ⟨⟩
        · exact ValueSet.foldl_join_ne_top (fun w _ => ih) (by rintro ⟨⟩)
      · next some =>
        intro top
        rw [top] at some
        exact some rfl
    · rintro ⟨⟩

def room (s : Session) (marked : Finset ValueId) : Nat :=
  ((Finset.range s.values.size).filter fun i => ⟨i⟩ ∉ marked).card

theorem room_le (s : Session) (marked : Finset ValueId) : s.room marked ≤ s.values.size := by
  have bound := Finset.card_filter_le (Finset.range s.values.size) fun i => (⟨i⟩ : ValueId) ∉ marked
  rwa [Finset.card_range] at bound

private theorem room_insert_lt (there : v.index < s.values.size) (fresh : v ∉ marked) :
    s.room (insert v marked) < s.room marked := by
  refine Finset.card_lt_card ((Finset.ssubset_iff_of_subset fun i hi => ?_).2 ⟨v.index, ?_, ?_⟩)
  · rw [Finset.mem_filter] at hi ⊢
    exact ⟨hi.1, fun old => hi.2 (Finset.mem_insert_of_mem old)⟩
  · rw [Finset.mem_filter, Finset.mem_range]
    exact ⟨there, fresh⟩
  · rw [Finset.mem_filter]
    exact fun hi => hi.2 (Finset.mem_insert_self v marked)

/-- The names of a class that have types. -/
theorem tells_typedNames (sorted : s.Alphabetical) (c : UserClass) :
    (s.typedNames (s.scope c.scope).names).Tells (s.ownTypes c) := by
  refine ⟨(sorted c.scope).filterMap _, fun name => ?_⟩
  rw [typedNames, (sorted c.scope).find?_filterMap, ownTypes, findName?]
  cases (s.scope c.scope).names.find? name <;> rfl

/-- While classes are searched from the first session on, those on the way are marked and every class has what it
had. -/
structure Searching (s : Session) (marked : Finset ValueId) (t : Session) : Prop extends Amid s marked t where
  own : ∀ c name, t.ownTypes c name = s.ownTypes c name
  sorted : t.Alphabetical

namespace Searching

theorem begin (sorted : s.Alphabetical) : Searching s ∅ s := ⟨.begin s, fun _ _ => rfl, sorted⟩

theorem reads (h : Searching s marked t) (g : Reads t r) : Searching s marked r := by
  refine ⟨h.toAmid.peeks (.of_reads g), fun c name => ?_, ?_⟩
  · exact (ownTypes_of_reads g c name).trans (h.own c name)
  · exact Sorts.of_reads g h.sorted

theorem setResolving (h : Searching s marked t) {on : Bool} {others : Finset ValueId}
    (amid : Amid s others (after (setResolving v on) t)) : Searching s others (after (setResolving v on) t) where
  toAmid := amid
  own c name := by
    rw [← h.own]
    simp only [ownTypes, findName?, scope, scopes_setResolving, types_setResolving]
  sorted := Sorts.of_scopes (scopes_setResolving v on t) h.sorted

theorem userClass (h : Searching s marked t) {c : UserClass} (hv : s.form v = .userClass c) :
    t.form v = .userClass { c with resolving := c.resolving || decide (v ∈ marked) } := by
  obtain ⟨on, ht⟩ := h.toLinks.userClass hv
  have mark := h.mark v
  rw [ht, hv] at mark
  rw [ht, show on = _ from mark]
  rfl

/-- The bases of a class are searched while the class is on the way, and then it is not any more. -/
theorem whileResolving {c : UserClass} (hv : s.form v = .userClass c) (idle : c.resolving = false) (fresh : v ∉ marked)
    (h : Searching s marked t) {search : Analysis α} {P : α → Prop}
    (finds : ∀ q, Searching s (insert v marked) q →
      ∃ found r, search q = .ok found r ∧ Searching s (insert v marked) r ∧ P found) :
    ∃ found r, Session.whileResolving v search t = .ok found r ∧ Searching s marked r ∧ P found := by
  obtain ⟨found, r, run, still, holds⟩ := finds _ (h.setResolving (h.search (by rw [hv]; rfl)))
  refine ⟨found, after (Session.setResolving v false) r, ?_, still.setResolving ⟨?_, fun w => ?_⟩, holds⟩
  · rw [whileResolving_run, run]
  · exact still.toLinks.trans (links_setResolving v false r)
  · rw [marked_setResolving, still.mark, still.userClass hv]
    by_cases own : w = v
    · rw [if_pos ⟨own, rfl⟩, own, hv, Form.marked, idle, decide_eq_false fresh]
      rfl
    · rw [if_neg fun same => own same.1]
      simp [own]

section Loops

variable (h : Searching s marked t) (items : List α)
include h

theorem joinM {f : α → Analysis ValueSet} {g : α → ValueSet}
    (finds : ∀ a ∈ items, ∀ q, Searching s marked q → ∃ r, f a q = .ok (g a) r ∧ Searching s marked r) :
    ∃ r, ValueSet.joinM items f t = .ok (items.foldl (fun acc a => acc.join (g a)) .empty) r ∧
      Searching s marked r := by
  have loop : ∀ (items : List α) (acc : ValueSet) (t : Session), Searching s marked t →
      (∀ a ∈ items, ∀ q, Searching s marked q → ∃ r, f a q = .ok (g a) r ∧ Searching s marked r) →
      ∃ r, (items.foldlM (fun acc item => do return acc.join (← f item)) acc : Analysis ValueSet) t =
        .ok (items.foldl (fun acc a => acc.join (g a)) acc) r ∧ Searching s marked r := by
    intro items
    induction items with
    | nil => exact fun acc t h _ => ⟨t, rfl, h⟩
    | cons a rest ih =>
      intro acc t h finds
      obtain ⟨first, others⟩ := List.forall_mem_cons.1 finds
      obtain ⟨q, found, still⟩ := first t h
      rw [List.foldlM_cons, bind_of_ok (show (do return acc.join (← f a) : Analysis ValueSet) t = _ from bind_of_ok found)]
      exact ih _ q still others
  exact loop items .empty t h finds

theorem mapM {f : α → Analysis β} {R : α → β → Prop}
    (finds : ∀ a ∈ items, ∀ q, Searching s marked q → ∃ b r, f a q = .ok b r ∧ Searching s marked r ∧ R a b) :
    ∃ all r, items.mapM f t = .ok all r ∧ Searching s marked r ∧ List.Forall₂ R items all := by
  induction items generalizing t with
  | nil => exact ⟨[], t, rfl, h, .nil⟩
  | cons a rest ih =>
    obtain ⟨first, others⟩ := List.forall_mem_cons.1 finds
    obtain ⟨b, q, found, still, holds⟩ := first t h
    obtain ⟨all, r, rests, also, hold⟩ := ih still others
    refine ⟨b :: all, r, ?_, also, .cons holds hold⟩
    rw [List.mapM_cons, bind_of_ok found, bind_of_ok rests]
    rfl

end Loops

/-- The search for a name finds what the class has under it. -/
theorem member (graph : s.OnlyClasses v) (enough : s.room marked < depth) (site : Site) (h : Searching s marked t) :
    ∃ r, answerWithin depth v (.member name) site t = .ok (s.classView name depth marked v) r ∧
      Searching s marked r := by
  induction depth generalizing marked v t with
  | zero => exact absurd enough (Nat.not_lt_zero _)
  | succ depth ih =>
    obtain ⟨c, hv⟩ := graph.userClass
    obtain ⟨r, q, reads, asks, rule⟩ := memberOf_class (h.userClass hv) (answerWithin depth) name site
    have own : t.ownTypes { c with resolving := c.resolving || decide (v ∈ marked) } name = s.ownTypes c name :=
      h.own c name
    rw [own, h.types] at rule
    rw [classView_of_class hv]
    cases none : (s.ownTypes c name).isEmpty with
    | false =>
      rw [none] at rule
      exact ⟨r, rule, h.reads reads⟩
    | true =>
      rw [none, if_pos rfl] at rule
      rw [if_pos rfl]
      cases busy : c.resolving || decide (v ∈ marked) with
      | true =>
        rw [busy] at rule
        exact ⟨q, rule, h.reads asks⟩
      | false =>
        rw [busy] at rule
        obtain ⟨idle, fresh⟩ : c.resolving = false ∧ v ∉ marked := by simpa using busy
        have there : v.index < s.values.size := index_lt_of_form (by rw [hv]; rintro ⟨⟩)
        have deep : s.room (insert v marked) < depth :=
          Nat.lt_of_lt_of_le (room_insert_lt there fresh) (Nat.le_of_lt_succ enough)
        have bases : ∀ q, Searching s (insert v marked) q →
            ∃ found r, (answerWithin depth).all (s.types c.bases) (.member name) site q = .ok found r ∧
              Searching s (insert v marked) r ∧ found = (s.types c.bases).items.foldl
                (fun acc w => acc.join (s.classView name depth (insert v marked) w)) .empty := by
          intro q h
          obtain ⟨r, run, still⟩ := h.joinM (s.types c.bases).items fun w mem q h => ih (v := w) (graph.base hv mem) deep h
          exact ⟨_, r, run, still, rfl⟩
        obtain ⟨found, p, run, still, rfl⟩ := whileResolving hv idle fresh (h.reads asks) bases
        exact ⟨p, rule.trans run, still⟩

/-- The list of all names holds for each what the class has under it. -/
theorem members (graph : s.OnlyClasses v) (enough : s.room marked < depth) (h : Searching s marked t) :
    ∃ all r, allMembersWithin depth v t = .ok all r ∧ Searching s marked r ∧
      all.Tells fun name => s.classView name depth marked v := by
  induction depth generalizing marked v t with
  | zero => exact absurd enough (Nat.not_lt_zero _)
  | succ depth ih =>
    obtain ⟨c, hv⟩ := graph.userClass
    have ht := h.userClass hv
    have mark : t.isResolving v = (c.resolving || decide (v ∈ marked)) := by
      rw [isResolving_eq, ht, Form.marked]
    -- What is inherited comes to nothing if the class is on the way already.
    obtain ⟨inherited, r, run, still, tells⟩ : ∃ inherited r,
        (if t.isResolving v then pure []
          else Session.whileResolving v ((t.types c.bases).items.mapM (allMembersWithin depth))) t = .ok inherited r ∧
        Searching s marked r ∧ (inherited.foldl joinMembers {}).Tells fun name =>
          if c.resolving || decide (v ∈ marked) then .empty
          else (s.types c.bases).items.foldl
            (fun acc w => acc.join (s.classView name depth (insert v marked) w)) .empty := by
      rw [mark]
      cases busy : c.resolving || decide (v ∈ marked) with
      | true => exact ⟨[], t, rfl, h, .nothing⟩
      | false =>
        obtain ⟨idle, fresh⟩ : c.resolving = false ∧ v ∉ marked := by simpa using busy
        have there : v.index < s.values.size := index_lt_of_form (by rw [hv]; rintro ⟨⟩)
        have deep : s.room (insert v marked) < depth :=
          Nat.lt_of_lt_of_le (room_insert_lt there fresh) (Nat.le_of_lt_succ enough)
        rw [h.types]
        obtain ⟨inherited, r, run, still, tells⟩ := whileResolving hv idle fresh h fun q h =>
          h.mapM (s.types c.bases).items fun w mem q h => ih (v := w) (graph.base hv mem) deep h
        exact ⟨inherited, r, run, still,
          NameMap.Tells.nothing.foldl tells (fun _ _ => classView_ne_top) fun _ => by rintro ⟨⟩⟩
    have own := tells_typedNames still.sorted c
    refine ⟨(r.typedNames (r.scope c.scope).names).toList.foldl (fun all pair => all.insert pair.1 pair.2)
      (inherited.foldl joinMembers {}), r, ?_, still, ?_⟩
    · rw [allMembersWithin, read_run, show (t.value v).form = _ from ht]
      dsimp only
      rw [read_run]
      cases busy : t.isResolving v with
      | true =>
        rw [busy] at run
        exact bind_of_ok run
      | false =>
        rw [busy] at run
        exact bind_of_ok run
    · simp only [classView_of_class hv, ← still.own]
      exact tells.override own

end Searching

private theorem room_lt_memberDepth (s : Session) (marked : Finset ValueId) : s.room marked < s.memberDepth :=
  Nat.lt_of_le_of_lt (s.room_le marked) (Nat.le_mul_self (s.values.size + 1))

/-- The search for a name of a class either finds what the list of all names shows or goes deeper than allowed. -/
theorem answerWithin_of_graph (sorted : s.Alphabetical) (graph : s.OnlyClasses v) (name : String) (site : Site)
    (depth : Nat) :
    (∃ r, answerWithin depth v (.member name) site s = .ok (s.classView name s.memberDepth ∅ v) r) ∨
      depth ≤ s.values.size ∧ ∃ r, answerWithin depth v (.member name) site s = .error .endless r := by
  obtain ⟨r, found, -⟩ := (Searching.begin sorted).member graph (s.room_lt_memberDepth ∅) site
  by_cases ends : ∀ r, answerWithin depth v (.member name) site s ≠ .error .endless r
  · -- Two depths at which the search comes to an end give the same.
    refine .inl ⟨r, found ▸ ?_⟩
    rcases Nat.le_total depth s.memberDepth with le | le
    · exact (Deepens.answerWithin le v (.member name) site s ends).symm
    · refine Deepens.answerWithin le v (.member name) site s fun q endless => ?_
      rw [found] at endless
      cases endless
  · obtain ⟨q, endless⟩ := not_forall_not.1 ends
    refine .inr ⟨Nat.le_of_not_lt fun deep => ?_, q, endless⟩
    obtain ⟨p, also, -⟩ := (Searching.begin sorted).member graph (Nat.lt_of_le_of_lt (s.room_le ∅) deep) site
    rw [endless] at also
    cases also

/-- In any session whose scopes keep their names in order, as they do in every history, the list of all names of a
class and the search for one name agree if no other values than classes are among the bases, however the classes
share bases or go round in circles and whichever of them are being searched: a name is listed if and only if the
search for it finds anything, and then for what is found. A search that goes deeper than allowed fails, which none
does that may go as deep as there are values. -/
theorem class_views_agree :
    (∀ s : Session, s.Alphabetical → ∀ cls, s.OnlyClasses cls → ∃ members t, allMembers cls s = .ok members t ∧
      ∀ name, ∃ values,
        (members.contains name = true ↔ values.isEmpty = false) ∧
        (members.contains name = true → members.find? name = some values) ∧
        ∀ site depth, (∃ r, answerWithin depth cls (.member name) site s = .ok values r) ∨
          depth ≤ s.values.size ∧ ∃ r, answerWithin depth cls (.member name) site s = .error .endless r) ∧
    ∀ {options host hostRequests} {first : Session}, create options host hostRequests = .ok first →
      ∀ {ops}, Fitting ops first → (afterAll ops first).Alphabetical := by
  refine ⟨fun s sorted cls graph => ?_, fun made _ fits => alphabetical_afterAll made fits⟩
  obtain ⟨members, t, run, -, tells⟩ := (Searching.begin sorted).members graph (s.room_lt_memberDepth ∅)
  refine ⟨members, t, run, fun name => ⟨s.classView name s.memberDepth ∅ cls, ?_, ?_,
    answerWithin_of_graph sorted graph name⟩⟩
  · rw [NameMap.contains, tells.shows, ValueSet.shown]
    cases (s.classView name s.memberDepth ∅ cls).isEmpty <;> simp
  · rw [NameMap.contains, tells.shows, ValueSet.shown]
    split
    · exact fun absent => absurd absent Bool.false_ne_true
    · exact fun _ => rfl

/-- Two classes have a base in common, which lists the class above them as its own base. -/
def roundClasses : List Operation :=
  [.addModule "m" "/m.py",
    .replaceTree ⟨0⟩ (some ⟨{}, [
      .classDef {} "D" [.name {} "loop"] [.assign {} [.name {} "y"] (.literal {} (.int 1))],
      .classDef {} "B" [.name {} "D"] [.pass {}], .classDef {} "C" [.name {} "D"] [.pass {}],
      .classDef {} "A" [.name {} "B", .name {} "C"] [.pass {}],
      .assign {} [.name {} "loop"] (.name {} "A")]⟩),
    .analyzeEntry ⟨0⟩ .never]

/-- The name of the topmost class is listed once for the lowest one and found from there at any depth that is more
than the number of values. -/
theorem round_class_views_agree :
    let s := afterAll roundClasses bare
    s.Alphabetical ∧ s.OnlyClasses ⟨4⟩ ∧ s.basesOf ⟨4⟩ = [⟨2⟩, ⟨3⟩] ∧ s.basesOf ⟨1⟩ = [⟨4⟩] ∧
      ∃ members t, allMembers ⟨4⟩ s = .ok members t ∧ members.find? "y" = some (.single (some ⟨5⟩)) ∧
        ∀ site depth, s.values.size < depth →
          ∃ r, answerWithin depth ⟨4⟩ (.member "y") site s = .ok (.single (some ⟨5⟩)) r := by
  intro s
  obtain ⟨fits, classes, closed, below, above, finds⟩ :
      Fitting roundClasses bare ∧ (∀ w ∈ [⟨1⟩, ⟨2⟩, ⟨3⟩, ⟨4⟩], (s.form w).kind = .userClass) ∧
      (∀ w ∈ [⟨1⟩, ⟨2⟩, ⟨3⟩, ⟨4⟩], ∀ x ∈ s.basesOf w, x ∈ [⟨1⟩, ⟨2⟩, ⟨3⟩, ⟨4⟩]) ∧
      s.basesOf ⟨4⟩ = [⟨2⟩, ⟨3⟩] ∧ s.basesOf ⟨1⟩ = [⟨4⟩] ∧
      yield? (answerWithin 7 ⟨4⟩ (.member "y") ⟨default, ⟨0⟩⟩) s = some (.single (some ⟨5⟩)) := by
    decide +kernel
  have sorted : s.Alphabetical := class_views_agree.2 create_bare fits
  have graph : s.OnlyClasses ⟨4⟩ := onlyClasses_of_mem classes closed (by simp)
  refine ⟨sorted, graph, below, above, ?_⟩
  obtain ⟨members, t, run, agree⟩ := class_views_agree.1 s sorted ⟨4⟩ graph
  obtain ⟨values, listed, shown, found⟩ := agree "y"
  obtain rfl : values = .single (some ⟨5⟩) := by
    have ends := ok_of_yield? finds
    rcases found ⟨default, ⟨0⟩⟩ 7 with ⟨r, same⟩ | ⟨-, r, endless⟩
    · rw [same] at ends
      cases ends
      rfl
    · rw [endless] at ends
      cases ends
  refine ⟨members, t, run, shown (listed.2 rfl), fun site depth deep => ?_⟩
  exact (found site depth).resolve_right fun shallow => absurd shallow.1 (Nat.not_le_of_lt deep)

end Session
end Typeflow
