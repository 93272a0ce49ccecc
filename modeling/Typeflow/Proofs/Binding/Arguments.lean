import Typeflow.Proofs.Binding.Joins

/-! Where the arguments of a call go. The recursion over the arguments hands each to the record that takes it, and
the starred parameters get what they stand for before. -/
namespace Typeflow.Session

variable {s t : Session} {v : ValueId} {f : UserFunction} {args : List ValueSet} {names : List String}

def positionalBefore (names : List String) (k : Nat) : Nat :=
  (List.range k).countP fun i => (names.getD i "").isEmpty

/-- The record that takes the `k`-th argument of a call, and the values that it takes. -/
inductive Takes (s : Session) (v : ValueId) (f : UserFunction) (args : List ValueSet) (names : List String)
    (k : Nat) : VarId → ValueSet → Prop
  /-- A positional argument goes to the plain parameter in its position. -/
  | plain {values : ValueSet} {p : String} {x : VarId} (given : args[k]? = some values)
      (positional : names.getD k "" = "") (param : (plainParams f)[positionalBefore names k]? = some p)
      (record : s.findName? f.scope p = some x) : Takes s v f args names k x values
  /-- One that is left over goes to the elements of the tuple for these. -/
  | spare {values : ValueSet} {tuple : ValueId} {x : VarId} (given : args[k]? = some values)
      (positional : names.getD k "" = "") (beyond : (plainParams f).length ≤ positionalBefore names k)
      (starred : lastParam f .rest ≠ none) (kept : (s.value v).kept? .rest = some tuple)
      (elements : (s.form tuple).record? .elements = some x) : Takes s v f args names k x values
  /-- An argument with a name goes to the plain parameter of that name. -/
  | named {values : ValueSet} {x : VarId} (given : args[k]? = some values) (keyword : names.getD k "" ≠ "")
      (param : names.getD k "" ∈ plainParams f) (record : s.findName? f.scope (names.getD k "") = some x) :
      Takes s v f args names k x values

/-- The sets that a call has for a record: arguments, and what the starred parameters stand for. -/
inductive Delivers (s : Session) (v : ValueId) (f : UserFunction) (args : List ValueSet) (names : List String) :
    VarId → ValueSet → Prop
  | argument {k : Nat} {x : VarId} {values : ValueSet} (h : Takes s v f args names k x values) :
      Delivers s v f args names x values
  | tuple {p : String} {x : VarId} {w : ValueId} (starred : lastParam f .rest = some p)
      (record : s.findName? f.scope p = some x) (kept : (s.value v).kept? .rest = some w) :
      Delivers s v f args names x (.single (some w))
  | dict {p : String} {x : VarId} {values : ValueSet} (starred : lastParam f .namedRest = some p)
      (record : s.findName? f.scope p = some x) (host : knownInstance .dict s = .ok values s) :
      Delivers s v f args names x values

/-- The parameters have their records, and so has what is kept for left-over arguments. -/
structure Callable (v : ValueId) (f : UserFunction) (s : Session) : Prop where
  there : v.index < s.values.size
  named : ∀ p ∈ f.params, ∃ x, s.findName? f.scope p.1 = some x ∧ x.index < s.records.size
  rest : lastParam f .rest ≠ none → ∀ w, (s.value v).kept? .rest = some w → s.HasElements w

/-- If left-over arguments are taken at all, something is kept for them. -/
def HasRest (v : ValueId) (f : UserFunction) (s : Session) : Prop :=
  lastParam f .rest ≠ none → ∃ w, (s.value v).kept? .rest = some w

theorem Supplied.callable (h : Supplied s) (form : s.form v = .function f) : Callable v f s where
  there := index_lt_of_form (by rw [form]; rintro ⟨⟩)
  named p hp := by
    obtain ⟨x, hx⟩ := h.named v f.params f.scope (by rw [form]; rfl) p hp
    exact ⟨x, hx, h.recorded _ _ _ hx⟩
  rest _ w kept := h.rest v w kept

section Params

private theorem exists_of_plain {p : String} (h : p ∈ plainParams f) : ∃ q ∈ f.params, q.1 = p := by
  obtain ⟨q, mem, found⟩ := List.mem_filterMap.1 h
  split at found
  · exact ⟨q, mem, Option.some.inj found⟩
  · cases found

private theorem exists_of_last {kind : ParamKind} {p : String} (h : lastParam f kind = some p) : ∃ q ∈ f.params, q.1 = p := by
  obtain ⟨q, mem, found⟩ := List.mem_filterMap.1 (List.mem_of_getLast? h)
  split at found
  · exact ⟨q, mem, Option.some.inj found⟩
  · cases found

private theorem positionalBefore_succ (names : List String) (k : Nat) :
    positionalBefore names (k + 1) =
      if (names.getD k "").isEmpty then positionalBefore names k + 1 else positionalBefore names k := by
  rw [positionalBefore, List.range_succ, List.countP_append, List.countP_singleton]
  split <;> rfl

private theorem getElem?_pairArgs (args : List ValueSet) (names : List String) (k : Nat) :
    (pairArgs args names)[k]? = args[k]?.map fun values => (values, names.getD k "") := by
  simp only [pairArgs, List.getElem?_map, List.getElem?_zipIdx, Option.map_map, Nat.zero_add]
  rfl

end Params

namespace Callable

theorem maintains (h : Callable v f s) (m : Maintains s t)
    (rest : lastParam f .rest ≠ none → ∀ w, (t.value v).kept? .rest = some w → t.HasElements w) : Callable v f t where
  there := Nat.lt_of_lt_of_le h.there m.values
  named p hp := by
    obtain ⟨x, found, there⟩ := h.named p hp
    exact ⟨x, by rw [m.findName?, found], Nat.lt_of_lt_of_le there m.records⟩
  rest := rest

theorem of_values (h : Callable v f s) (m : Maintains s t) (values : t.values = s.values) : Callable v f t :=
  h.maintains m fun starred w kept => m.hasElements (h.rest starred w (by rwa [value, values] at kept))

private theorem of_rest (h : Callable v f s) (m : Maintains s t) (has : HasRest v f s) : Callable v f t := by
  refine h.maintains m fun starred w kept => ?_
  obtain ⟨old, there⟩ := has starred
  obtain rfl : old = w := Option.some.inj ((m.kept v .rest old there).symm.trans kept)
  exact m.hasElements (h.rest starred old there)

theorem plain (h : Callable v f s) {p : String} (mem : p ∈ plainParams f) :
    ∃ x, s.findName? f.scope p = some x ∧ x.index < s.records.size := by
  obtain ⟨q, hq, rfl⟩ := exists_of_plain mem
  exact h.named q hq

theorem last (h : Callable v f s) {kind : ParamKind} {p : String} (last : lastParam f kind = some p) :
    ∃ x, s.findName? f.scope p = some x ∧ x.index < s.records.size := by
  obtain ⟨q, hq, rfl⟩ := exists_of_last last
  exact h.named q hq

end Callable

/-- The action makes the records take in what is right for them, and tells whether that or what was done before is
news. No value is made. -/
def Puts (P : VarId → ValueSet → Prop) (before : Bool) (m : Analysis Bool) (s : Session) : Prop :=
  ∃ news t sets, m s = .ok (news || before) t ∧ t.values = s.values ∧ Joins sets news s t ∧
    ∀ x values, (x, values) ∈ sets ↔ P x values

namespace Puts

variable {P Q : VarId → ValueSet → Prop} {before : Bool} {m : Analysis Bool}

theorem congr (h : Puts P before m s) (same : ∀ x values, P x values ↔ Q x values) : Puts Q before m s := by
  obtain ⟨news, t, sets, run, values, joins, exact_⟩ := h
  exact ⟨news, t, sets, run, values, joins, fun x u => (exact_ x u).trans (same x u)⟩

theorem pure (none : ∀ x values, ¬ P x values) : Puts P before (Pure.pure before) s :=
  ⟨false, s, [], rfl, rfl, .refl s, fun x values => by simpa using none x values⟩

theorem bind {f : Bool → Analysis Bool} (hm : Puts P false m s)
    (hf : ∀ news t, Maintains s t → t.values = s.values → Puts Q (news || before) (f news) t) :
    Puts (fun x values => P x values ∨ Q x values) before (m >>= f) s := by
  obtain ⟨news, t, sets, run, values, joins, exact_⟩ := hm
  obtain ⟨more, r, others, next, same, adds, rest⟩ := hf news t joins.toMaintains values
  refine ⟨more || news, r, sets ++ others, ?_, same.trans values, joins.trans adds, fun x u => ?_⟩
  · rw [bind_of_ok run, Bool.or_false, next, Bool.or_assoc]
  · rw [List.mem_append, exact_, rest]

theorem addTypes {x : VarId} (there : x.index < s.records.size) (values : ValueSet) :
    Puts (fun y u => y = x ∧ u = values) false (Session.addTypes x values) s := by
  obtain ⟨news, t, run, same, joins⟩ := Joins.addTypes there values
  exact ⟨news, t, _, by rw [run, Bool.or_false], same, joins, by simp⟩

theorem addToParam (h : Callable v f s) {p : String} (mem : p ∈ plainParams f) (values : ValueSet) :
    Puts (fun x u => s.findName? f.scope p = some x ∧ u = values) false (Session.addToParam f p values) s := by
  obtain ⟨x, found, there⟩ := h.plain mem
  have rule : Session.addToParam f p values s = Session.addTypes x values s := by
    simp only [Session.addToParam, read_run, paramRecord, found]
  obtain ⟨news, t, sets, run, rest⟩ := (addTypes there values).congr (Q := fun y u =>
    s.findName? f.scope p = some y ∧ u = values) (by simp [found, eq_comm])
  exact ⟨news, t, sets, rule.trans run, rest⟩

theorem addToRest (h : Callable v f s) (starred : lastParam f .rest ≠ none) {w : ValueId}
    (kept : (s.value v).kept? .rest = some w) (values : ValueSet) :
    Puts (fun x u => (s.form w).record? .elements = some x ∧ u = values) false (Session.addToRest v values) s := by
  obtain ⟨type, x, form, there⟩ := h.rest starred w kept
  have rule : Session.addToRest v values s = Session.addTypes x values s := by
    rw [Session.addToRest, bind_of_ok (restTuple_of_kept kept)]
    simp only [read_run, form]
  obtain ⟨news, t, sets, run, rest⟩ := (addTypes there values).congr (Q := fun y u =>
    (s.form w).record? .elements = some y ∧ u = values) (by simp [form, Form.record?, eq_comm])
  exact ⟨news, t, sets, rule.trans run, rest⟩

end Puts

theorem Takes.congr {k : Nat} (scopes : t.scopes = s.scopes) (values : t.values = s.values) (x : VarId)
    (u : ValueSet) :
    Takes t v f args names k x u ↔ Takes s v f args names k x u := by
  have both : ∀ {s t : Session}, t.scopes = s.scopes → t.values = s.values →
      Takes s v f args names k x u → Takes t v f args names k x u := by
    intro s t scopes values h
    have find : ∀ c name, t.findName? c name = s.findName? c name := fun c name => by
      rw [findName?, scope, scopes]
      rfl
    have value : ∀ v, t.value v = s.value v := fun v => by rw [Session.value, values]; rfl
    cases h with
    | plain given positional param record => exact .plain given positional param (by rw [find, record])
    | spare given positional beyond starred kept elements =>
      exact .spare given positional beyond starred (by rw [value, kept]) (by rw [form, value]; exact elements)
    | named given keyword param record => exact .named given keyword param (by rw [find, record])
  exact ⟨both scopes.symm values.symm, both scopes values⟩

section Takes

variable {k : Nat} {values u : ValueSet} {x : VarId}

private theorem takes_of_plain {p : String} (given : args[k]? = some values) (positional : names.getD k "" = "")
    (param : (plainParams f)[positionalBefore names k]? = some p) :
    Takes s v f args names k x u ↔ s.findName? f.scope p = some x ∧ u = values := by
  constructor
  · rintro (⟨given', -, param', record⟩ | ⟨-, -, beyond, -⟩ | ⟨-, keyword, -⟩)
    · exact ⟨Option.some.inj (param'.symm.trans param) ▸ record, Option.some.inj (given'.symm.trans given)⟩
    · rw [List.getElem?_eq_none beyond] at param
      cases param
    · exact absurd positional keyword
  · rintro ⟨record, rfl⟩
    exact .plain given positional param record

private theorem takes_of_spare {w : ValueId} (given : args[k]? = some values) (positional : names.getD k "" = "")
    (beyond : (plainParams f).length ≤ positionalBefore names k) (starred : lastParam f .rest ≠ none)
    (kept : (s.value v).kept? .rest = some w) :
    Takes s v f args names k x u ↔ (s.form w).record? .elements = some x ∧ u = values := by
  constructor
  · rintro (⟨-, -, param, -⟩ | ⟨given', -, -, -, kept', elements⟩ | ⟨-, keyword, -⟩)
    · rw [List.getElem?_eq_none beyond] at param
      cases param
    · exact ⟨Option.some.inj (kept'.symm.trans kept) ▸ elements, Option.some.inj (given'.symm.trans given)⟩
    · exact absurd positional keyword
  · rintro ⟨elements, rfl⟩
    exact .spare given positional beyond starred kept elements

private theorem takes_of_named (given : args[k]? = some values) (keyword : names.getD k "" ≠ "")
    (param : names.getD k "" ∈ plainParams f) :
    Takes s v f args names k x u ↔ s.findName? f.scope (names.getD k "") = some x ∧ u = values := by
  constructor
  · rintro (⟨-, positional, -⟩ | ⟨-, positional, -⟩ | ⟨given', -, -, record⟩)
    · exact absurd positional keyword
    · exact absurd positional keyword
    · exact ⟨record, Option.some.inj (given'.symm.trans given)⟩
  · rintro ⟨record, rfl⟩
    exact .named given keyword param record

/-- Without a starred parameter nothing takes the positional arguments that are left over. -/
theorem not_takes_of_spare (positional : names.getD k "" = "")
    (beyond : (plainParams f).length ≤ positionalBefore names k) (unstarred : lastParam f .rest = none) :
    ¬ Takes s v f args names k x u := by
  rintro (⟨-, -, param, -⟩ | ⟨-, -, -, starred, -⟩ | ⟨-, keyword, -⟩)
  · rw [List.getElem?_eq_none beyond] at param
    cases param
  · exact starred unstarred
  · exact keyword positional

/-- Nothing takes an argument with the name of no plain parameter. -/
theorem not_takes_of_named (keyword : names.getD k "" ≠ "") (other : names.getD k "" ∉ plainParams f) :
    ¬ Takes s v f args names k x u := by
  rintro (⟨-, positional, -⟩ | ⟨-, positional, -⟩ | ⟨-, -, param, -⟩)
  · exact keyword positional
  · exact keyword positional
  · exact other param

end Takes

section Each

variable {values : ValueSet} {name p : String} {before : Bool} {free : List String} {rest : List (ValueSet × String)}

private theorem bindEach_plain (positional : name = "") :
    bindEach v f before (p :: free) ((values, name) :: rest) =
      (addToParam f p values >>= fun news => bindEach v f (news || before) free rest) := by
  subst positional
  rfl

private theorem bindEach_spare (positional : name = "") :
    bindEach v f before [] ((values, name) :: rest) =
      if (lastParam f .rest).isSome then addToRest v values >>= fun news => bindEach v f (news || before) [] rest
      else bindEach v f before [] rest := by
  subst positional
  rfl

private theorem bindEach_named (keyword : name ≠ "") :
    bindEach v f before free ((values, name) :: rest) =
      if name ∈ plainParams f then addToParam f name values >>= fun news => bindEach v f (news || before) free rest
      else bindEach v f before free rest := by
  have rule : bindEach v f before free ((values, name) :: rest) =
      if (plainParams f).contains name then
        addToParam f name values >>= fun news => bindEach v f (news || before) free rest
      else bindEach v f before free rest := if_neg fun empty => keyword (String.isEmpty_iff.1 empty)
  simpa only [List.contains_iff_mem] using rule

end Each

private theorem exists_le_iff {P : Nat → Prop} (k : Nat) : (∃ j, k ≤ j ∧ P j) ↔ P k ∨ ∃ j, k + 1 ≤ j ∧ P j := by
  constructor
  · rintro ⟨j, le, h⟩
    rcases Nat.eq_or_lt_of_le le with rfl | lt
    · exact .inl h
    · exact .inr ⟨j, lt, h⟩
  · rintro (h | ⟨j, le, h⟩)
    · exact ⟨k, Nat.le_refl k, h⟩
    · exact ⟨j, Nat.le_of_succ_le le, h⟩

/-- From the `k`-th on each argument goes to the record that takes it. -/
theorem puts_bindEach (rest : List (ValueSet × String)) (k : Nat) (before : Bool) (h : Callable v f s)
    (tuple : HasRest v f s)
    (given : ∀ i, rest[i]? = args[k + i]?.map fun values => (values, names.getD (k + i) "")) :
    Puts (fun x values => ∃ j, k ≤ j ∧ Takes s v f args names j x values) before
      (bindEach v f before ((plainParams f).drop (positionalBefore names k)) rest) s := by
  induction rest generalizing k before s with
  | nil =>
    refine .pure fun x values => ?_
    rintro ⟨j, le, takes⟩
    have none : args[j]? = none := by
      have ended := given (j - k)
      rw [Nat.add_sub_cancel' le] at ended
      simpa using ended.symm
    cases takes <;> simp_all
  | cons one rest ih =>
    obtain ⟨values, name⟩ := one
    have here := given 0
    simp only [List.getElem?_cons_zero, Nat.add_zero] at here
    obtain ⟨there, named⟩ : args[k]? = some values ∧ name = names.getD k "" := by
      cases arg : args[k]? with
      | none => rw [arg] at here; cases here
      | some u => rw [arg] at here; cases here; exact ⟨rfl, rfl⟩
    have next : ∀ i, rest[i]? = args[k + 1 + i]?.map fun values => (values, names.getD (k + 1 + i) "") := by
      intro i
      rw [Nat.add_right_comm]
      exact given (i + 1)
    -- What follows the first argument, in a session in which this may have changed some record.
    have others : ∀ (before : Bool) {t : Session}, Maintains s t → t.values = s.values →
        Puts (fun x values => ∃ j, k + 1 ≤ j ∧ Takes s v f args names j x values) before
          (bindEach v f before ((plainParams f).drop (positionalBefore names (k + 1))) rest) t := by
      intro before t maintains same
      have value : t.value v = s.value v := by rw [Session.value, same]; rfl
      refine (ih (k + 1) before (h.of_values maintains same) (by rwa [HasRest, value]) next).congr fun x u => ?_
      simp only [Takes.congr maintains.scopes same]
    have first : ∀ {P : VarId → ValueSet → Prop} {m : Analysis Bool}, Puts P false m s →
        (∀ x u, Takes s v f args names k x u ↔ P x u) →
        Puts (fun x values => ∃ j, k ≤ j ∧ Takes s v f args names j x values) before
          (m >>= fun news => bindEach v f (news || before)
            ((plainParams f).drop (positionalBefore names (k + 1))) rest) s := by
      intro P m puts takes
      refine (puts.bind fun news t maintains same => others (news || before) maintains same).congr fun x u => ?_
      rw [exists_le_iff k, takes]
    have skipped : (∀ x u, ¬ Takes s v f args names k x u) →
        Puts (fun x values => ∃ j, k ≤ j ∧ Takes s v f args names j x values) before
          (bindEach v f before ((plainParams f).drop (positionalBefore names (k + 1))) rest) s := by
      intro none
      refine (others before (.refl s) rfl).congr fun x u => ?_
      rw [exists_le_iff k, or_iff_right (none x u)]
    have count := positionalBefore_succ names k
    subst named
    by_cases positional : names.getD k "" = ""
    · rw [if_pos (by rw [positional]; rfl)] at count
      rw [count] at first skipped
      cases param : (plainParams f)[positionalBefore names k]? with
      | some p =>
        obtain ⟨inside, rfl⟩ := List.getElem?_eq_some_iff.1 param
        rw [List.drop_eq_getElem_cons inside, bindEach_plain positional]
        exact first (.addToParam h (List.getElem_mem inside) values) fun x u => takes_of_plain there positional param
      | none =>
        have beyond := List.getElem?_eq_none_iff.1 param
        rw [List.drop_eq_nil_of_le beyond, bindEach_spare positional]
        rw [List.drop_eq_nil_of_le (Nat.le_succ_of_le beyond)] at first skipped
        by_cases starred : lastParam f .rest = none
        · rw [if_neg (by rw [starred]; simp)]
          exact skipped fun x u => not_takes_of_spare positional beyond starred
        · obtain ⟨w, kept⟩ := tuple starred
          rw [if_pos (Option.isSome_iff_ne_none.2 starred)]
          exact first (.addToRest h starred kept values) fun x u => takes_of_spare there positional beyond starred kept
    · rw [if_neg fun empty => positional (String.isEmpty_iff.1 empty)] at count
      rw [count] at first skipped
      rw [bindEach_named positional]
      split
      · next mem => exact first (.addToParam h mem values) fun x u => takes_of_named there positional mem
      · next other => exact skipped fun x u => not_takes_of_named positional other

section Starred

/-- The tuple for left-over arguments goes to the last parameter with one star. -/
def bindTuple (v : ValueId) (f : UserFunction) : Analysis Bool := do
  match lastParam f .rest with
  | none => pure false
  | some name => addTypes (← nameIn f.scope name) (.single (← restTuple v))

/-- The dictionary of the host goes to the last parameter with two stars. -/
def bindDict (f : UserFunction) : Analysis Bool := do
  match lastParam f .namedRest with
  | none => pure false
  | some name => addTypes (← nameIn f.scope name) (← knownInstance .dict)

private theorem bindStarred_eq (v : ValueId) (f : UserFunction) :
    bindStarred v f = (do return (← bindTuple v f) || (← bindDict f)) := by
  unfold bindStarred bindTuple bindDict
  cases lastParam f .rest <;> cases lastParam f .namedRest <;> simp only [bind_assoc, pure_bind]

private theorem bindTuple_run (h : Callable v f s) :
    ∃ news t sets, bindTuple v f s = .ok news t ∧ Joins sets news s t ∧ Callable v f t ∧ HasRest v f t ∧
      ∀ x u, (x, u) ∈ sets ↔ ∃ p w, lastParam f .rest = some p ∧ s.findName? f.scope p = some x ∧
        (t.value v).kept? .rest = some w ∧ u = .single (some w) := by
  cases starred : lastParam f .rest with
  | none =>
    have run : bindTuple v f s = .ok false s := by
      rw [bindTuple, starred]
      rfl
    exact ⟨false, s, [], run, .refl s, h, fun expected => absurd starred expected, by simp⟩
  | some p =>
    have expected : lastParam f .rest ≠ none := by simp [starred]
    obtain ⟨x, found, recorded⟩ := h.last starred
    obtain ⟨w, r, made, furnishes, kept, elements⟩ := restTuple_run h.there (h.rest expected)
    obtain ⟨news, t, added, values, joins⟩ :=
      Joins.addTypes (Nat.lt_of_lt_of_le recorded furnishes.records) (.single (some w))
    have run : bindTuple v f s = .ok news t := by
      rw [bindTuple, starred]
      simp only [bind_of_ok (nameIn_of_some found), bind_of_ok made, added]
    have keeps : (t.value v).kept? .rest = some w := by rwa [value, values]
    have whole := (Joins.of_furnishes furnishes).trans joins
    have rest : t.HasElements w := joins.hasElements elements
    refine ⟨news, t, _, run, by simpa using whole, ?_, fun _ => ⟨w, keeps⟩, fun y u => ?_⟩
    · refine h.maintains whole.toMaintains fun _ other there => ?_
      obtain rfl : w = other := Option.some.inj (keeps.symm.trans there)
      exact rest
    · simp [found, keeps, eq_comm]

private theorem bindDict_run (h : Callable v f s) (has : HasRest v f s) :
    ∃ news t sets, bindDict f s = .ok news t ∧ Joins sets news s t ∧ Callable v f t ∧ HasRest v f t ∧
      ∀ q, Maintains t q → q.values = t.values → ∀ x u, (x, u) ∈ sets ↔
        ∃ p, lastParam f .namedRest = some p ∧ s.findName? f.scope p = some x ∧ knownInstance .dict q = .ok u q := by
  have lasts : ∀ {t : Session}, Maintains s t → HasRest v f t := fun m starred =>
    (has starred).imp fun w kept => m.kept v .rest w kept
  cases starred : lastParam f .namedRest with
  | none =>
    have run : bindDict f s = .ok false s := by
      rw [bindDict, starred]
      rfl
    exact ⟨false, s, [], run, .refl s, h, has, by simp⟩
  | some p =>
    obtain ⟨x, found, recorded⟩ := h.last starred
    obtain ⟨dict, r, made, furnishes, again⟩ := knownInstance_run .dict s
    obtain ⟨news, t, added, values, joins⟩ :=
      Joins.addTypes (Nat.lt_of_lt_of_le recorded furnishes.records) dict
    have run : bindDict f s = .ok news t := by
      rw [bindDict, starred]
      simp only [bind_of_ok (nameIn_of_some found), bind_of_ok made, added]
    have whole := (Joins.of_furnishes furnishes).trans joins
    refine ⟨news, t, _, run, by simpa using whole, h.of_rest whole.toMaintains has, lasts whole.toMaintains,
      fun q maintains same y u => ?_⟩
    have answers := again q (joins.toMaintains.trans maintains) (same.trans values)
    simp [found, answers, eq_comm]

end Starred

/-- Every argument is bound. -/
theorem bindArguments_run (h : Callable v f s) (args : List ValueSet) (names : List String) :
    ∃ news t sets, bindArguments v f args names s = .ok news t ∧ Joins sets news s t ∧ Callable v f t ∧
      HasRest v f t ∧ ∀ x u, (x, u) ∈ sets ↔ Delivers t v f args names x u := by
  obtain ⟨first, r, tuples, tupled, joined, callable, has, tuple⟩ := bindTuple_run h
  obtain ⟨second, q, dicts, dicted, added, ready, kept, dict⟩ := bindDict_run callable has
  have started : bindStarred v f s = .ok (first || second) q := by
    rw [bindStarred_eq, bind_of_ok tupled, bind_of_ok dicted]
    rfl
  have given : ∀ i, (pairArgs args names)[i]? =
      args[0 + i]?.map fun values => (values, names.getD (0 + i) "") := fun i => by
    rw [getElem?_pairArgs, Nat.zero_add]
  obtain ⟨news, t, sets, run, values, joins, takes⟩ := puts_bindEach _ 0 (first || second) ready kept given
  refine ⟨news || (first || second), t, tuples ++ dicts ++ sets, ?_, ?_, ready.of_values joins.toMaintains values,
    fun starred => ?_, fun x u => ?_⟩
  · rw [bindArguments, bind_of_ok started]
    exact run
  · rw [Bool.or_comm first second]
    exact (joined.trans added).trans joins
  · rw [value, values]
    exact kept starred
  · have after_ := joins.toMaintains
    have whole := added.toMaintains.trans after_
    have find : ∀ c name, t.findName? c name = s.findName? c name := (joined.toMaintains.trans whole).findName?
    have early : ∀ p w, lastParam f .rest = some p →
        ((r.value v).kept? .rest = some w ↔ (t.value v).kept? .rest = some w) := by
      intro p w starred
      refine ⟨whole.kept v .rest w, fun later => ?_⟩
      obtain ⟨old, there⟩ := has (by simp [starred])
      rwa [← Option.some.inj ((whole.kept v .rest old there).symm.trans later)]
    rw [List.mem_append, List.mem_append, tuple, dict t after_ values, takes]
    simp only [joined.findName?, ← find]
    constructor
    · rintro ((⟨p, w, starred, record, there, rfl⟩ | ⟨p, starred, record, host⟩) | ⟨j, -, takes⟩)
      · exact .tuple starred record ((early p w starred).1 there)
      · exact .dict starred record host
      · exact .argument ((Takes.congr joins.scopes values x u).2 takes)
    · rintro (takes | ⟨starred, record, there⟩ | ⟨starred, record, host⟩)
      · exact .inr ⟨_, Nat.zero_le _, (Takes.congr joins.scopes values x u).1 takes⟩
      · exact .inl (.inl ⟨_, _, starred, record, (early _ _ starred).2 there, rfl⟩)
      · exact .inl (.inr ⟨_, starred, record, host⟩)

end Typeflow.Session
