import Typeflow.Proofs.Roam.Answer
import Typeflow.Session.Walk

/-! Running a body stays within a realm. -/
namespace Typeflow.Session

/-- A value that is a wrapper and nothing besides. -/
structure IsWrapper (value : Value) (wrapper : Wrapper) : Prop where
  form : value.form = .wrapper wrapper
  kept : value.kept = []
  table : value.table = {}

private theorem newWrapper_run (wrapped : Found) (qualified : String) (source : WrapperSource) (s : Session) :
    ∃ value, IsWrapper value ⟨wrapped, qualified, source⟩ ∧
      newWrapper wrapped qualified source s = .ok s.nextValue (s.withValue value) := by
  cases wrapped with
  | none => exact ⟨_, ⟨rfl, rfl, rfl⟩, rfl⟩
  | some v => exact ⟨_, ⟨rfl, rfl, rfl⟩, rfl⟩

def withWrapper (s : Session) (v : ValueId) (value : Value) : Session :=
  (s.withValue value).setValue v (((s.withValue value).value v).keep .wrapper s.nextValue)

/-- No wrapper is made for a function that has one. -/
theorem functionWrapper_of_some {s : Session} {v w : ValueId} (kept : (s.value v).kept? .wrapper = some w)
    (module : ValueId) (qualified : String) : functionWrapper v module qualified s = .ok (.single (some w)) s := by
  have run : keptOr v .wrapper (newWrapper (some v) qualified (.table module)) s = .ok w s := by
    simp only [keptOr, read_run, kept]
    rfl
  exact bind_of_ok run

theorem functionWrapper_of_none {s : Session} {v : ValueId} (free : (s.value v).kept? .wrapper = none)
    (module : ValueId) (qualified : String) :
    ∃ value, IsWrapper value ⟨some v, qualified, .table module⟩ ∧
      newWrapper (some v) qualified (.table module) s = .ok s.nextValue (s.withValue value) ∧
      functionWrapper v module qualified s = .ok (.single (some s.nextValue)) (s.withWrapper v value) := by
  obtain ⟨value, is, made⟩ := newWrapper_run (some v) qualified (.table module) s
  have run : keptOr v .wrapper (newWrapper (some v) qualified (.table module)) s =
      .ok s.nextValue (s.withWrapper v value) := by
    simp only [keptOr, read_run, free]
    exact bind_of_ok made
  exact ⟨value, is, made, bind_of_ok run⟩

/-- A function without a wrapper is still without one when a wrapper is made. -/
theorem IsWrapper.unwrapped {value : Value} {wrapper : Wrapper} (is : IsWrapper value wrapper) {s : Session}
    {v : ValueId} (free : (s.value v).kept? .wrapper = none) :
    ((s.withValue value).value v).kept? .wrapper = none := by
  rw [withValue, value_push]
  split
  · rw [Value.kept?, is.kept]
    rfl
  · exact free

namespace Roams

open Within

variable {L : Licence} {R : Realm} {u : UnitId}

private theorem record_of_visibleName? {s : Session} (hs : R.Closed s) {scope : ScopeId} {name : String}
    {x : VarId} (h : s.visibleName? scope name = some x) : R.record x := by
  obtain ⟨c, _, seen⟩ := List.exists_of_findSome?_eq_some h
  split at seen
  · cases seen
  · exact hs.names c name x (Option.filter_eq_some_iff.1 seen).1

theorem lookupName {site : Site} (hs : L.keep site.node.id) (name : String) :
    Roams L R (Session.lookupName name site) R.set := by
  refine .read fun s hc => ?_
  dsimp only
  split
  · next x hx =>
    have record := record_of_visibleName? hc hx
    exact .bind (addReader _ _) fun _ _ => .bind (addReference _ _) fun _ _ => .read fun _ ht =>
      .pure (ht.types x record)
  · refine .bind (nameIn _ _) fun _ _ => .bind (addReader _ _) fun _ _ =>
      .bind builtinsModule fun found hf => ?_
    cases found with
    | none => exact .pure Realm.set_empty
    | some m => exact answer hs m _ (hf m rfl) trivial

theorem appliedClass (v : ValueId) (index : ValueSet) :
    Roams L R (Session.appliedClass v index) R.found := by
  refine .read fun s _ => ?_
  split
  · exact .pure Realm.found_none
  · exact genericType _ _
  · exact .pure Realm.found_none

theorem subscriptOf {site : Site} (hs : L.keep site.node.id) {v : ValueId} (hv : R.value v)
    {index : ValueSet} (hi : R.set index) : Roams L R (Session.subscriptOf v index site) R.set := by
  refine .bind (appliedClass v index) fun found hf => ?_
  cases found with
  | some made => exact .pure (Realm.set_single hf)
  | none => exact answer hs v (.index index) hv hi

theorem literalSequence {site : Site} (hs : L.keep site.node.id) (id : TypeId) :
    Roams L R (Session.literalSequence id site) R.set :=
  siteValue hs (.bind (knownType id) fun _ ht => .bind (newSequence ht) fun _ hl =>
    .pure (Realm.set_single (Realm.found_some hl)))

mutual

theorem evaluate (e : Expr) (h : ∀ n ∈ e.places, L.keep n) :
    Roams L R (Session.evaluate u e) R.set := by
  cases e <;> simp only [Expr.places, List.forall_mem_cons, List.forall_mem_append] at h
  case missing => exact .pure Realm.set_empty
  case name mark id => exact lookupName h.1 id
  case literal mark value => exact constantSet value
  case «attribute» mark value attr =>
    exact .bind (evaluate value h.2) fun _ hv => askAll (answer h.1) hv trivial
  case subscript mark value slice =>
    exact .bind (evaluate value h.2.1) fun _ hv => .bind (evaluate slice h.2.2) fun _ hi =>
      joinM fun v hm => subscriptOf h.1 (hv v hm) hi
  case call mark callee args names =>
    exact .bind (evaluate callee h.2.1) fun _ hv => .bind (evaluateAll args h.2.2) fun values ha =>
      askAll (answer h.1) hv (show R.question (.call values names) from ha)
  case tuple mark elements =>
    exact .bind (literalSequence h.1 _) fun _ hm => .bind (evaluateAll elements h.2) fun _ he =>
      .bind (addToSequences _ (Realm.set_unionAll he 0)) fun _ _ => .pure hm
  case list mark elements =>
    exact .bind (literalSequence h.1 _) fun _ hm => .bind (evaluateAll elements h.2) fun _ he =>
      .bind (addToSequences _ (Realm.set_unionAll he 0)) fun _ _ => .pure hm

theorem evaluateAll (es : List Expr) (h : ∀ n ∈ Expr.placesAll es, L.keep n) :
    Roams L R (Session.evaluateAll u es) fun found => ∀ values ∈ found, R.set values := by
  cases es with
  | nil => exact .pure (List.forall_mem_nil _)
  | cons e rest =>
    rw [Expr.placesAll, List.forall_mem_append] at h
    exact .bind (evaluate e h.1) fun _ hf => .bind (evaluateAll rest h.2) fun _ hr =>
      .pure (List.forall_mem_cons.2 ⟨hf, hr⟩)

end

theorem bindName (node : Node) (name : String) {values : ValueSet} (h : R.set values) :
    Roams L R (Session.bindName u node name values) fun _ => True :=
  .read fun _ _ => .bind (nameIn _ _) fun _ _ => .read fun _ _ => bindAt _ _ h

mutual

theorem assignTo (statement : Node) {values : ValueSet} (hv : R.set values) (e : Expr)
    (h : ∀ n ∈ e.places, L.keep n) :
    Roams L R (Session.assignTo u statement values e) fun _ => True := by
  cases e <;> simp only [Expr.places, List.forall_mem_cons, List.forall_mem_append] at h
  case missing => exact .pure trivial
  case name mark id => exact bindName _ _ hv
  case literal mark value => exact .pure trivial
  case «attribute» mark value attr =>
    exact .bind (evaluate value h.2) fun _ ht => .forM fun v hm => setMember (ht v hm) _ hv _
  case subscript mark value slice =>
    exact .bind (evaluate slice h.2.2) fun _ _ => .bind (evaluate value h.2.1) fun _ _ =>
      .forM fun v _ => setIndex v hv
  case call mark callee args names => exact .pure trivial
  case tuple mark elements =>
    exact .bind (askAll (answer h.1) hv trivial) fun _ he => assignEach statement he elements h.2
  case list mark elements =>
    exact .bind (askAll (answer h.1) hv trivial) fun _ he => assignEach statement he elements h.2

theorem assignEach (statement : Node) {values : ValueSet} (hv : R.set values) (targets : List Expr)
    (h : ∀ n ∈ Expr.placesAll targets, L.keep n) :
    Roams L R (Session.assignEach u statement values targets) fun _ => True := by
  cases targets with
  | nil => exact .pure trivial
  | cons e rest =>
    rw [Expr.placesAll, List.forall_mem_append] at h
    exact .bind (assignTo statement hv e h.1) fun _ _ => assignEach statement hv rest h.2

end

/-- A function of a body gets its wrapper. -/
theorem functionWrapper {body : Body} (hd : L.define u body) {v : ValueId} (hv : R.value v)
    (module : ValueId) (qualified : String) :
    Roams L R (Session.functionWrapper v module qualified) R.set := by
  intro s hs
  cases kept : (s.value v).kept? .wrapper with
  | some w =>
    have run := functionWrapper_of_some kept module qualified
    rw [after_of_ok run]
    refine ⟨.refl, fun values t ends => ?_⟩
    cases run.symm.trans ends
    exact Realm.set_single (Realm.found_some (hs.kept v hv .wrapper w kept))
  | none =>
    have source : R.source (.table module) := trivial
    have makes : Roams L R (Session.newWrapper (some v) qualified (.table module)) R.value :=
      newWrapper (Realm.found_some hv) qualified source
    obtain ⟨value, is, made, run⟩ := functionWrapper_of_none kept module qualified
    obtain ⟨touches, yields⟩ := makes s hs
    have new : R.value s.nextValue := yields _ _ made
    rw [after_of_ok made] at touches
    rw [after_of_ok run]
    refine ⟨touches.tail (.wrap u body v s.nextValue hd new (is.unwrapped kept)), fun values t ends => ?_⟩
    cases run.symm.trans ends
    exact Realm.set_single (Realm.found_some new)

theorem functionBinding {body : Body} (hd : L.define u body) {v : ValueId} (hv : R.value v)
    (name : String) : Roams L R (Session.functionBinding u v name) fun bound => R.set bound.1 := by
  have single : R.set (.single v) := Realm.set_single (Realm.found_some hv)
  refine .read fun s _ => ?_
  dsimp only
  split
  · exact .pure single
  · next e _ =>
    split
    · exact .pure single
    · exact .bind (functionWrapper hd hv _ _) fun _ hw => .pure hw

theorem addDefault (v : ValueId) (param : Param) (h : ∀ n ∈ param.default.places, L.keep n) :
    Roams L R (Session.addDefault u v param) fun _ => True := by
  unfold Session.addDefault
  split
  · exact .pure trivial
  · refine .bind (evaluate _ h) fun values hv => .read fun s _ => ?_
    split
    · exact .bind (addToParam _ _ hv) fun _ _ => .pure trivial
    · exact .pure trivial

theorem addBase (v : ValueId) (base : Expr) (h : ∀ n ∈ base.places, L.keep n) :
    Roams L R (Session.addBase u v base) fun _ => True := by
  refine .bind (evaluate base h) fun values hv => .read fun s _ => ?_
  split
  · exact .bind (addTypes hv) fun _ _ => .pure trivial
  · exact .pure trivial

/-- Everything that is done for a function after it is made. -/
theorem defaults (v : ValueId) (params : List Param) (h : ∀ n ∈ Param.placesAll params, L.keep n) :
    Roams L R (params.forM (Session.addDefault u v)) fun _ => True :=
  .forM fun param hp => addDefault v param fun n hn => h n (List.mem_flatMap.2 ⟨param, hp, hn⟩)

theorem bases (v : ValueId) (es : List Expr) (h : ∀ n ∈ Expr.placesAll es, L.keep n) :
    Roams L R (es.forM (Session.addBase u v)) fun _ => True := by
  induction es with
  | nil => exact .pure trivial
  | cons e rest ih =>
    rw [Expr.placesAll, List.forall_mem_append] at h
    exact .bind (addBase v e h.1) fun _ _ => ih h.2

theorem walkFunction (body : Body) (name : String) (params : List Param) (decorators : List Expr)
    (h : ∀ n ∈ Param.placesAll params ++ Expr.placesAll decorators, L.keep n)
    (hd : L.define u body) (kind : body.kind = .function) :
    Roams L R (Session.walkFunction u body name params decorators) fun _ => True := by
  rw [List.forall_mem_append] at h
  refine .bind (of_step (fun _ => .defineFunction _ _ _ _ hd kind)
    (.definitionAt _ _ _ (.newFunction _ _ _ _))) fun found hf => ?_
  cases found with
  | none => exact .pure trivial
  | some made =>
    exact .bind (defaults made.value params h.1) fun _ _ =>
      .bind (evaluateAll decorators h.2) fun _ _ =>
        .bind (functionBinding hd (hf made rfl) _) fun _ hb => .bind (bindName _ _ hb) fun _ _ =>
          .ite (enqueueBody _ _) (.pure trivial)

theorem walkClass (body : Body) (name : String) (es : List Expr)
    (h : ∀ n ∈ Expr.placesAll es, L.keep n) (hd : L.define u body) (kind : body.kind = .userClass) :
    Roams L R (Session.walkClass u body name es) fun _ => True := by
  refine .bind (of_step (fun _ => .defineClass _ _ _ hd kind) (.definitionAt _ _ _ (.newClass _ _ _)))
    fun found hf => ?_
  cases found with
  | none => exact .pure trivial
  | some made =>
    have single := Realm.set_single (Realm.found_some (hf made rfl))
    exact .bind (bases made.value es h) fun _ _ => .bind (bindName _ _ single) fun _ _ =>
      .ite (enqueueBody _ _) (.pure trivial)

theorem walkReturn (value : Expr) (h : ∀ n ∈ value.places, L.keep n) :
    Roams L R (Session.walkReturn u value) fun _ => True := by
  refine .read fun s _ => ?_
  split
  · exact .pure trivial
  · split
    · exact .bind (constantSet _) fun _ hv => .bind (addTypes hv) fun _ _ => .pure trivial
    · exact .bind (evaluate _ h) fun _ hv => .bind (addTypes hv) fun _ _ => .pure trivial

private theorem bindFound (node : Node) (name : String) {v : Found} (h : R.found v) :
    Roams L R (Session.bindName u node name (.single v)) fun _ => True :=
  bindName node name (Realm.set_single h)

theorem importAlias (node : Node) (name : Alias) :
    Roams L R (Session.importAlias u node name) fun _ => True := by
  refine .bind (resolveModule _ _) fun found hf => .ite (bindFound _ _ hf) ?_
  dsimp only
  split
  · exact .bind (.pure hf) fun _ hb => bindFound _ _ hb
  · exact .bind (resolveModule _ _) fun _ hb => bindFound _ _ hb

theorem importStar (node : Node) (hn : L.keep node.id) {module : Found} (hm : R.found module) :
    Roams L R (Session.importStar u node module) fun _ => True := by
  cases module with
  | none => exact .pure trivial
  | some m =>
    have asks : Answers L R Session.answer ⟨node, u⟩ := answer hn
    exact .bind (allMembers (hm m rfl)) fun _ _ => .forM fun _ _ =>
      .bind (asks m _ (hm m rfl) trivial) fun _ hv => bindName _ _ hv

theorem importMember (node : Node) (hn : L.keep node.id) (base : String) {module : Found}
    (hm : R.found module) (name : Alias) :
    Roams L R (Session.importMember u node base module name) fun _ => True := by
  have rest : ∀ member : ValueSet, R.set member → Roams L R (do
      let values ←
        if member.isEmpty then
          Pure.pure (.single (← Session.resolveModule
            (if base.isEmpty then name.name else base ++ "." ++ name.name) u))
        else Pure.pure member
      Session.bindName u node (if name.asName.isEmpty then name.name else name.asName) values)
      fun _ => True := by
    intro member hmember
    dsimp only
    split
    · exact .bind (resolveModule _ _) fun _ hf => .bind (.pure (Realm.set_single hf)) fun _ hv =>
        bindName _ _ hv
    · exact .bind (.pure hmember) fun _ hv => bindName _ _ hv
  cases module with
  | none => exact .bind (.pure Realm.set_empty) rest
  | some m =>
    have asks : Answers L R Session.answer ⟨node, u⟩ := answer hn
    exact .bind (asks m _ (hm m rfl) trivial) rest

theorem walkImportFrom (node : Node) (hn : L.keep node.id) (module : String) (level : Int)
    (names : List Alias) :
    Roams L R (Session.walkImportFrom u node module level names) fun _ => True :=
  .read fun _ _ => .bind (resolveModule _ _) fun _ hf => .forM fun name _ =>
    .ite (importStar node hn hf) (importMember node hn _ hf name)

mutual

theorem walk (s : Stmt) (hp : ∀ n ∈ s.places, L.keep n) (hd : ∀ b ∈ s.definitions, L.define u b) :
    Roams L R (Session.walk u s) fun _ => True := by
  cases s <;> simp only [Stmt.places, Stmt.definitions, List.forall_mem_cons,
    List.forall_mem_append] at hp hd
  case missing => exact .pure trivial
  case pass mark => exact .pure trivial
  case functionDef mark name params body decorators =>
    exact walkFunction _ _ _ _ (List.forall_mem_append.2 hp) hd.1 rfl
  case classDef mark name es body => exact walkClass _ _ _ hp hd.1 rfl
  case ret mark value => exact walkReturn value hp
  case assign mark targets value =>
    exact .bind (evaluate value hp.2) fun _ hv => assignEach _ hv targets hp.1
  case expr mark value => exact .bind (evaluate value hp) fun _ _ => .pure trivial
  case branch mark cond thenBody elseBody =>
    exact .bind (evaluate cond hp.1) fun _ _ => .bind (walkAll thenBody hp.2.1 hd.1) fun _ _ =>
      walkAll elseBody hp.2.2 hd.2
  case loop mark cond thenBody elseBody =>
    exact .bind (evaluate cond hp.1) fun _ _ => .bind (walkAll thenBody hp.2.1 hd.1) fun _ _ =>
      walkAll elseBody hp.2.2 hd.2
  case each mark target iterable thenBody elseBody =>
    have asks : Answers L R Session.answer ⟨mark.node .forStmt, u⟩ := answer hp.1
    exact .bind (evaluate iterable hp.2.2.1) fun _ hv =>
      .bind (askAll asks hv trivial) fun _ he =>
        .bind (assignTo _ he target hp.2.1) fun _ _ =>
          .bind (walkAll thenBody hp.2.2.2.1 hd.1) fun _ _ => walkAll elseBody hp.2.2.2.2 hd.2
  case importNames mark names => exact .forM fun name _ => importAlias _ name
  case importFrom mark module level names => exact walkImportFrom _ hp.1 _ _ _

theorem walkAll (stmts : List Stmt) (hp : ∀ n ∈ Stmt.placesAll stmts, L.keep n)
    (hd : ∀ b ∈ Stmt.definitionsAll stmts, L.define u b) :
    Roams L R (Session.walkAll u stmts) fun _ => True := by
  cases stmts with
  | nil => exact .pure trivial
  | cons s rest =>
    rw [Stmt.placesAll, List.forall_mem_append] at hp
    rw [Stmt.definitionsAll, List.forall_mem_append] at hd
    exact .bind (walk s hp.1 hd.1) fun _ _ => walkAll rest hp.2 hd.2

end

end Roams

/-- A run of a unit stays within any realm that is closed. -/
theorem touches_runBody {R : Realm} (u : UnitId) {s : Session} (hs : R.Closed s) :
    Touches (licence u (s.unit u).body) R s (after (runBody u) s) := by
  have walk : Roams (licence u (s.unit u).body) R (walkAll u (s.unit u).body.statements) fun _ => True :=
    Roams.walkAll _ (fun _ hn => hn) fun _ hb => ⟨rfl, hb⟩
  exact (walk s hs).1

end Typeflow.Session
