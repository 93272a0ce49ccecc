import Typeflow.Proofs.Imports.Watch

/-! The names that the imports in a body ask for and that cannot be resolved. A body that is run to its
end watches them all. -/
namespace Typeflow.Session

def unresolved (name : String) (u : UnitId) (s : Session) : List String :=
  match resolveModule name u s with
  | .ok none _ => [name]
  | _ => []

section Missed

variable {α : Type}

/-- What is missed in what follows an action, which has to end. -/
def following (m : Analysis α) (missed : α → Session → List String) (s : Session) : List String :=
  match m s with
  | .ok a t => missed a t
  | .error _ _ => []

/-- What is missed when an action is carried out for one item after the other. -/
def missedEach (run : α → Analysis Unit) (missed : α → Session → List String) :
    List α → Session → List String
  | [], _ => []
  | a :: rest, s => missed a s ++ following (run a) (fun _ => missedEach run missed rest) s

end Missed

/-- `import a.b` asks for `a.b`, and for `a` if this is what it binds. -/
def aliasMissed (u : UnitId) (name : Alias) (s : Session) : List String :=
  let top := (Text.dotted name.name).headD ""
  unresolved name.name u s ++ following (resolveModule name.name u) (fun _ t =>
    if !name.asName.isEmpty || top = name.name then [] else unresolved top u t) s

def memberAsked (u : UnitId) (node : Node) (module : Found) (name : String) : Analysis ValueSet :=
  match module with
  | none => pure .empty
  | some m => answer m (.member name) ⟨node, u⟩

/-- A name that is no member of a module is asked for as a module below it. -/
def memberMissed (u : UnitId) (node : Node) (base : String) (module : Found) (name : Alias)
    (s : Session) : List String :=
  if name.name = "*" then []
  else following (memberAsked u node module name.name) (fun member t =>
    if member.isEmpty then
      unresolved (if base.isEmpty then name.name else base ++ "." ++ name.name) u t
    else []) s

def importFromMissed (u : UnitId) (node : Node) (module : String) (level : Int) (names : List Alias)
    (s : Session) : List String :=
  let base := if 0 < level then s.relativeBase u module level else module
  unresolved base u s ++ following (resolveModule base u) (fun found =>
    missedEach
      (fun name => if name.name = "*" then importStar u node found else importMember u node base found name)
      (memberMissed u node base found) names) s

mutual

/-- The names that a statement asks for in vain when it is run in a unit. -/
def missed (u : UnitId) : Stmt → Session → List String
  | .branch _ cond thenBody elseBody, s | .loop _ cond thenBody elseBody, s =>
    following (evaluate u cond) (fun _ t => missedAll u thenBody t ++
      following (walkAll u thenBody) (fun _ => missedAll u elseBody) t) s
  | .each mark target iterable thenBody elseBody, s =>
    let node := mark.node .forStmt
    let assigned := do
      let values ← evaluate u iterable
      assignTo u node (← answer.all values .elements ⟨node, u⟩) target
    following assigned (fun _ t => missedAll u thenBody t ++
      following (walkAll u thenBody) (fun _ => missedAll u elseBody) t) s
  | .importNames mark names, s =>
    missedEach (importAlias u (mark.node .importNames)) (aliasMissed u) names s
  | .importFrom mark module level names, s =>
    importFromMissed u (mark.node .importFrom) module level names s
  | .missing, _ | .pass _, _ | .functionDef .., _ | .classDef .., _ | .ret .., _ | .assign .., _
  | .expr .., _ => []

def missedAll (u : UnitId) : List Stmt → Session → List String
  | [], _ => []
  | statement :: rest, s =>
    missed u statement s ++ following (walk u statement) (fun _ => missedAll u rest) s

end

/-- The names that a turn asked for in vain. -/
def Turn.missed (turn : Turn) : List String :=
  missedAll turn.unit (turn.before.unit turn.unit).body.statements turn.before

/-- The unit watches what the action misses, when it ends and as long as it is not retired. -/
structure Marks (u : UnitId) {α : Type} (m : Analysis α) (missed : Session → List String) : Prop where
  watchful : ∀ s, Watchful s (after m s)
  marks : ∀ s a t, m s = .ok a t → u.index < s.units.size → t.isAlive u = true →
    ∀ name ∈ missed s, name ≠ "" → t.Watches u name

/-- Everything may be kept and defined. -/
def freely : Licence := ⟨fun _ => True, fun _ _ => True⟩

namespace Marks

variable {u : UnitId} {α β : Type} {m : Analysis α} {Q : α → Prop}

/-- What asks for no modules misses none. -/
theorem of_roams (h : Roams freely .all m Q) : Marks u m fun _ => [] :=
  ⟨Watchful.of_roams h, fun _ _ _ _ _ _ _ hn => nomatch hn⟩

theorem pure (a : α) : Marks u (Pure.pure a : Analysis α) fun _ => [] :=
  ⟨fun s => .refl s, fun _ _ _ _ _ _ _ hn => nomatch hn⟩

theorem resolveModule (name : String) : Marks u (Session.resolveModule name u) (unresolved name u) := by
  refine ⟨Watchful.of_roams (Roams.resolveModule (L := freely) name u), fun s found t ends hu ha n hn named => ?_⟩
  rw [unresolved, ends] at hn
  cases found with
  | some m => cases hn
  | none =>
    have same : n = name := List.mem_singleton.1 hn
    subst same
    have asked : n.isEmpty = false := by
      rw [Bool.eq_false_iff, ne_eq, String.isEmpty_iff]
      exact named
    rw [Session.resolveModule, asked, if_neg Bool.false_ne_true] at ends
    obtain ⟨first, r, -, ends⟩ := bind_eq_ok ends
    cases first with
    | some m => cases ends
    | none =>
      obtain ⟨second, q, -, ends⟩ := bind_eq_ok ends
      cases second with
      | some m => cases ends
      | none =>
        have watched : t = after (watch n u) q := by
          cases ends
          rfl
        rw [watched, Watches, NameMap.findD]
        change u ∈ ((q.watchers.insert n _).find? n).getD []
        rw [NameMap.find?_insert, if_pos rfl]
        exact Variable.mem_addOnce.2 (.inl rfl)

theorem bind {f : α → Analysis β} {first : Session → List String} {more : α → Session → List String}
    (hm : Marks u m first) (hf : ∀ a, Marks u (f a) (more a)) :
    Marks u (m >>= f) fun s => first s ++ following m more s := by
  constructor
  · intro s
    have before := hm.watchful s
    cases h : m s with
    | ok a r =>
      rw [after_of_ok h] at before
      rw [after_bind_of_ok h]
      exact before.trans ((hf a).watchful r)
    | error e r =>
      rw [after_of_error h] at before
      rwa [after_bind_of_error h]
  · intro s b t ends hu ha name hn named
    obtain ⟨a, r, head, rest⟩ := bind_eq_ok ends
    have before := hm.watchful s
    have later := (hf a).watchful r
    rw [after_of_ok head] at before
    rw [after_of_ok rest] at later
    have there := Nat.lt_of_lt_of_le hu before.size
    rcases List.mem_append.1 hn with hn | hn
    · have watched := hm.marks s a r head hu (later.alive there ha) name hn named
      exact later.watches u name there ha watched
    · rw [following, head] at hn
      exact (hf a).marks r b t rest there ha name hn named

/-- What misses nothing may come first. -/
theorem after {f : α → Analysis β} {more : α → Session → List String} (hm : Marks u m fun _ => [])
    (hf : ∀ a, Marks u (f a) (more a)) : Marks u (m >>= f) (following m more) := by
  simpa using bind hm hf

/-- What misses nothing may come last. -/
theorem before {f : α → Analysis β} {first : Session → List String} (hm : Marks u m first)
    (hf : ∀ a, Marks u (f a) fun _ => []) : Marks u (m >>= f) first := by
  have nothing : ∀ s, following m (fun _ _ => []) s = [] := by
    intro s
    rw [following]
    split <;> rfl
  simpa [nothing] using bind hm hf

theorem ite {c : Prop} [Decidable c] {n : Analysis α} {first second : Session → List String}
    (hm : Marks u m first) (hn : Marks u n second) :
    Marks u (if c then m else n) fun s => if c then first s else second s := by
  split
  · exact hm
  · exact hn

theorem forM {f : α → Analysis Unit} {more : α → Session → List String} (h : ∀ a, Marks u (f a) (more a))
    (items : List α) : Marks u (items.forM f) (missedEach f more items) := by
  induction items with
  | nil => exact pure ()
  | cons a rest ih => exact bind (h a) fun _ => ih

theorem bindName (node : Node) (name : String) (values : ValueSet) :
    Marks u (Session.bindName u node name values) fun _ => [] :=
  of_roams (.bindName node name (Realm.set_all values))

theorem importAlias (node : Node) (name : Alias) :
    Marks u (Session.importAlias u node name) (aliasMissed u name) := by
  refine bind (resolveModule _) fun found => ?_
  dsimp only
  cases name.asName.isEmpty with
  | false => exact bindName _ _ _
  | true =>
    simp only [Bool.not_true, Bool.false_eq_true, if_false, Bool.false_or, decide_eq_true_eq]
    split
    · exact before (pure _) fun _ => bindName _ _ _
    · exact before (resolveModule _) fun _ => bindName _ _ _

private theorem memberAsked (node : Node) (module : Found) (name : String) :
    Marks u (Session.memberAsked u node module name) fun _ => [] := by
  cases module with
  | none => exact pure _
  | some m =>
    have asks : Roams.Answers freely .all answer ⟨node, u⟩ := Roams.answer trivial
    exact of_roams (asks m _ trivial (Realm.question_all _))

theorem importMember (node : Node) (base : String) (module : Found) (name : Alias) :
    Marks u (if name.name = "*" then Session.importStar u node module
      else Session.importMember u node base module name) (memberMissed u node base module name) := by
  unfold memberMissed
  refine ite (of_roams (.importStar node trivial fun _ _ => trivial)) ?_
  have run : Session.importMember u node base module name =
      (Session.memberAsked u node module name.name >>= fun member => do
        let values ←
          if member.isEmpty then
            Pure.pure (.single (← Session.resolveModule
              (if base.isEmpty then name.name else base ++ "." ++ name.name) u))
          else Pure.pure member
        Session.bindName u node (if name.asName.isEmpty then name.name else name.asName) values) := by
    cases module <;> rfl
  rw [run]
  refine after (memberAsked node module name.name) fun member => ?_
  dsimp only
  cases member.isEmpty with
  | true =>
    simp only [if_true]
    exact before (resolveModule _) fun _ => before (pure _) fun _ => bindName _ _ _
  | false =>
    simp only [Bool.false_eq_true, if_false]
    exact before (pure _) fun _ => bindName _ _ _

theorem importFrom (node : Node) (module : String) (level : Int) (names : List Alias) :
    Marks u (walkImportFrom u node module level names) (importFromMissed u node module level names) := by
  let base (s : Session) : String := if 0 < level then s.relativeBase u module level else module
  let bind_ (base : String) (found : Found) (name : Alias) : Analysis Unit :=
    if name.name = "*" then importStar u node found else Session.importMember u node base found name
  have run : ∀ s, walkImportFrom u node module level names s =
      (Session.resolveModule (base s) u >>= fun found => names.forM (bind_ (base s) found)) s := fun s => by
    rw [walkImportFrom, read_run]
  have asks : ∀ base, Marks u (Session.resolveModule base u >>= fun found => names.forM (bind_ base found))
      fun s => unresolved base u s ++ following (Session.resolveModule base u) (fun found =>
        missedEach (bind_ base found) (memberMissed u node base found) names) s := fun base =>
    bind (resolveModule base) fun found => forM (importMember node base found) names
  constructor
  · intro s
    rw [Session.after, run, ← Session.after]
    exact (asks (base s)).watchful s
  · intro s a t ends
    rw [run] at ends
    exact (asks (base s)).marks s a t ends

/-- Two branches, the second of which is run after the first. -/
theorem branches {first second : List Stmt} (hf : Marks u (Session.walkAll u first) (missedAll u first))
    (hs : Marks u (Session.walkAll u second) (missedAll u second)) :
    Marks u (Session.walkAll u first >>= fun _ => Session.walkAll u second) fun s =>
      missedAll u first s ++ following (Session.walkAll u first) (fun _ => missedAll u second) s :=
  bind hf fun _ => hs

theorem evaluate (e : Expr) : Marks u (Session.evaluate u e) fun _ => [] :=
  of_roams (Roams.evaluate (L := freely) e fun _ _ => trivial)

/-- A statement that has no imports in it. -/
theorem plain {statement : Stmt} (h : ∀ s, missed u statement s = []) :
    Marks u (Session.walk u statement) (missed u statement) := by
  have none : missed u statement = fun _ => [] := funext h
  rw [none]
  exact of_roams (Roams.walk (L := freely) statement (fun _ _ => trivial) fun _ _ => trivial)

mutual

theorem walk (statement : Stmt) : Marks u (Session.walk u statement) (missed u statement) := by
  cases statement with
  | branch mark cond thenBody elseBody =>
    exact after (evaluate cond) fun _ => branches (walkAll thenBody) (walkAll elseBody)
  | loop mark cond thenBody elseBody =>
    exact after (evaluate cond) fun _ => branches (walkAll thenBody) (walkAll elseBody)
  | each mark target iterable thenBody elseBody =>
    let node := mark.node .forStmt
    let assigned : Analysis Unit := do
      let values ← Session.evaluate u iterable
      assignTo u node (← answer.all values .elements ⟨node, u⟩) target
    have assigns : Marks u assigned fun _ => [] := by
      have asks : Roams.Answers freely .all answer ⟨node, u⟩ := Roams.answer trivial
      exact of_roams (.bind (Roams.evaluate iterable fun _ _ => trivial) fun _ hv =>
        .bind (Roams.askAll asks hv trivial) fun _ he => Roams.assignTo _ he target fun _ _ => trivial)
    have run : Session.walk u (.each mark target iterable thenBody elseBody) =
        assigned >>= fun _ => Session.walkAll u thenBody >>= fun _ => Session.walkAll u elseBody := by
      rw [Session.walk]
      simp only [assigned, bind_assoc]
      rfl
    rw [run]
    exact after assigns fun _ => branches (walkAll thenBody) (walkAll elseBody)
  | importNames mark names => exact forM (importAlias _) names
  | importFrom mark module level names => exact importFrom _ module level names
  | missing | pass | functionDef | classDef | ret | assign | expr => exact plain fun _ => rfl

theorem walkAll (statements : List Stmt) :
    Marks u (Session.walkAll u statements) (missedAll u statements) := by
  cases statements with
  | nil => exact pure ()
  | cons statement rest => exact bind (walk statement) fun _ => walkAll rest

end

end Marks

end Typeflow.Session
