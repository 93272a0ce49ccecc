import Typeflow.Proofs.Growth
import Typeflow.Proofs.Lookup
import Typeflow.Proofs.Lookup.Project

/-! What reading yields of a record that has outgrown its cap. `top` lists no values, so wherever a search goes on
when it has found none, it goes on over such a record too. -/
namespace Typeflow.Session

variable {s t : Session} {site : Site} {x : VarId}

/-- A way in which a program reads the types of a record as they are. -/
inductive Reading where
  | name (name : String)
  /-- A name of a module of the project. -/
  | ofModule (m : ValueId) (name : String)
  /-- An attribute that an instance has itself. -/
  | ofInstance (v : ValueId) (name : String)
  | elements (v : ValueId)
  | index (v : ValueId) (at_ : ValueSet)
  /-- What a call of a function of the program yields. -/
  | returned (f : ValueId) (args : List ValueSet) (names : List String)

namespace Reading

def record? (s : Session) (site : Site) : Reading → Option VarId
  | .name n => s.visibleName? (s.scopeAt site) n
  | .ofModule m n => s.boundIn? m n
  | .ofInstance v n => (s.form v).record? (.member n)
  | .elements v => (s.form v).record? .elements
  | .index v _ => if (s.form v).kind = .sequence then (s.form v).record? .elements else none
  | .returned f _ _ => (s.form f).record? .returns

def run (site : Site) : Reading → Analysis ValueSet
  | .name n => lookupName n site
  | .ofModule v n | .ofInstance v n => answer v (.member n) site
  | .elements v => answer v .elements site
  | .index v at_ => answer v (.index at_) site
  | .returned f args names => answer f (.call args names) site

end Reading

theorem join_empty (values : ValueSet) : values.join .empty = values := by
  cases values with
  | top => rfl
  | of values =>
    have same : values.union .nil = values := by simp [ValueList.union, ValueList.nil]
    simp [ValueSet.join, ValueSet.union, ValueSet.empty, ValueSet.capped, same]

/-- What has outgrown its cap stays so. -/
theorem Grows.top (h : Grows s t) (top : s.types x = .top) : t.types x = .top := by
  have least := h.types x
  rw [top, ValueSet.members_top, top_le_iff] at least
  exact ValueSet.members_eq_top.1 least

section Direct

variable {name : String} {v : ValueId}

private theorem lookupName_run (h : s.visibleName? (s.scopeAt site) name = some x) :
    ∃ t, lookupName name site s = .ok (s.types x) t := by
  let read := after (addReader x site.unit) s
  let noted := after (addReference x (s.locationAt site)) read
  have same : noted.types x = s.types x :=
    ((Fills.addReference x _ read).types x).trans ((Peeks.addReader x site.unit s).types x)
  refine ⟨noted, ?_⟩
  simp only [lookupName, read_run, h]
  rw [← same]
  rfl

/-- An instance adds what its class has to what it has itself. -/
theorem userInstanceMember_run {cls : ValueId} {attributes : NameMap VarId} (hv : s.form v = .userInstance cls attributes)
    (h : attributes.find? name = some x) (ask : Ask) (site : Site) :
    memberOf ask v name site s =
      (do return (s.types x).join (← ValueSet.joinM (← ask cls (.member name) site).items (throughInstance v)) :
        Analysis ValueSet) (after (addReader x site.unit) s) := by
  have own : attributeOf v name s = .ok (some x) s := by
    simp only [attributeOf, read_run, hv, h]
    rfl
  rw [memberOf, read_run, hv]
  dsimp only
  rw [userInstanceMember, bind_of_ok own]
  dsimp only
  rw [bind_of_ok (readAt_run x site s)]

private theorem elementsOf_run (h : (s.form v).record? .elements = some x) (ask : Ask) :
    ∃ t, elementsOf ask v site s = .ok (s.types x) t := by
  cases hv : s.form v with
  | sequence | iterator =>
    rw [hv] at h
    cases h
    exact ⟨_, by rw [elementsOf, read_run, hv]; exact readAt_run _ site s⟩
  | _ =>
    rw [hv] at h
    cases h

private theorem indexOf_run (kind : (s.form v).kind = .sequence) (h : (s.form v).record? .elements = some x) (ask : Ask)
    (at_ : ValueSet) : ∃ t, indexOf ask v at_ site s = .ok (s.types x) t := by
  cases hv : s.form v with
  | sequence =>
    rw [hv] at h
    cases h
    exact ⟨_, by rw [indexOf, read_run, hv]; exact readAt_run _ site s⟩
  | _ =>
    rw [hv] at kind
    cases kind

/-- A call may give the parameters of the function more types, and what the function returns gets none fewer. -/
theorem callOf_run {f : UserFunction} (hv : s.form v = .function f) (ask : Ask) (args : List ValueSet)
    (names : List String) (site : Site) : ∃ r t, Grows s r ∧ callOf ask v args names site s = .ok (r.types f.returns) t := by
  obtain ⟨changed, binds⟩ := total_bindArguments v f args names s
  let bound := after (bindArguments v f args names) s
  have grown : Grows s bound :=
    .of_steps (Stepwise.of_roams (L := noLicence) (Roams.bindArguments trivial f (fun _ _ => Realm.set_all _) names) s)
  have rule : callOf ask v args names site s = callFunction v f args names site s := by
    rw [callOf, read_run, hv]
  rw [rule, callFunction, bind_of_ok binds]
  cases changed with
  | false => exact ⟨bound, _, grown, readAt_run f.returns site bound⟩
  | true =>
    obtain ⟨⟨⟩, queued⟩ := total_enqueueBody v .back bound
    let waiting := after (enqueueBody v .back) bound
    refine ⟨waiting, after (addReader f.returns site.unit) waiting, grown.trans (.enqueueBody v .back), ?_⟩
    rw [if_pos rfl, bind_of_ok queued]
    exact readAt_run f.returns site waiting

end Direct

/-- The rules answer what is asked at the top. -/
theorem answer_eq : answer = respond (answerWithin (questionDepth - 1)) := rfl

def boundName (name : Alias) : String := if name.asName.isEmpty then name.name else name.asName

def below (base name : String) : String := if base.isEmpty then name else base ++ "." ++ name

private theorem importMember_run {m : ValueId} {name : Alias} {u : UnitId} {node : Node} (h : s.boundIn? m name.name = some x)
    (full : s.types x = .top) (base : String) :
    ∃ t, importMember u node base (some m) name s =
      (do bindName u node (boundName name) (.single (← resolveModule (below base name.name) u))) t := by
  obtain ⟨t, member⟩ := projectMember_run (answerWithin (questionDepth - 1)) ⟨node, u⟩ h
  have asks : answer m (.member name.name) ⟨node, u⟩ s = .ok .top t := by
    rw [full] at member
    exact member
  refine ⟨t, ?_⟩
  rw [importMember]
  dsimp only
  rw [bind_of_ok asks]
  rfl

namespace Reading

/-- What is read of an instance is joined with what its class yields, if that comes to an end. -/
def asksClass : Reading → Bool
  | .ofInstance .. => true
  | _ => false

private theorem run_of_top {r : Reading} (record : r.record? s site = some x) (full : s.types x = .top)
    (alone : r.asksClass = false) : ∃ t, r.run site s = .ok .top t := by
  rw [← full]
  cases r with
  | name n => exact lookupName_run record
  | ofModule m n => exact projectMember_run _ site record
  | ofInstance v n => cases alone
  | elements v => exact elementsOf_run record _
  | index v at_ =>
    simp only [record?, Option.ite_none_right_eq_some] at record
    exact indexOf_run record.1 record.2 _ at_
  | returned f args names =>
    cases hv : s.form f with
    | function code =>
      simp only [record?, hv, Form.record?, Option.some.injEq] at record
      obtain ⟨r, t, grows, run⟩ := callOf_run hv (answerWithin (questionDepth - 1)) args names site
      rw [record, grows.top full, ← full] at run
      exact ⟨t, run⟩
    | _ =>
      simp only [record?, hv] at record
      cases record

private theorem top_of_run {r : Reading} (record : r.record? s site = some x) (full : s.types x = .top) {values : ValueSet}
    {t : Session} (run : r.run site s = .ok values t) : values = .top := by
  cases alone : r.asksClass with
  | false =>
    obtain ⟨q, yields⟩ := run_of_top record full alone
    rw [yields] at run
    cases run
    rfl
  | true =>
    cases r with
    | ofInstance v n =>
      cases hv : s.form v with
      | userInstance cls attributes =>
        simp only [record?, hv, Form.record?] at record
        have rule := userInstanceMember_run hv record (answerWithin (questionDepth - 1)) site
        have asks : answer v (.member n) site s = .ok values t := run
        rw [answer_eq] at asks
        rw [full] at rule
        obtain ⟨found, q, -, rest⟩ := bind_eq_ok (rule.symm.trans asks)
        obtain ⟨more, p, -, joined⟩ := bind_eq_ok rest
        cases joined
        rfl
      | _ =>
        simp only [record?, hv] at record
        cases record
    | _ => cases alone

end Reading

/-- A record that has outgrown its cap is read as `top` wherever it is read as it is: by name, from a module, from
an instance that has it, as elements, at an index, and as what a function returns. All these readings come to an
end, that of an instance if its class answers. Where values are looked for, the record is passed over: a class goes
on to its bases, an instance reads nothing of what its class yields as `top`, and an import goes on to the module
that has the name. -/
theorem top_is_read (s : Session) (site : Site) (x : VarId) (full : s.types x = .top) :
    (∀ r : Reading, r.record? s site = some x →
      (∀ values t, r.run site s = .ok values t → values = .top) ∧
        (r.asksClass = false → ∃ t, r.run site s = .ok .top t)) ∧
    (∀ v cls attributes name, s.form v = .userInstance cls attributes → attributes.find? name = some x →
      ∀ found q, answerWithin (questionDepth - 1) cls (.member name) site (after (addReader x site.unit) s) =
        .ok found q → ∃ t, answer v (.member name) site s = .ok .top t) ∧
    (∀ cls c name, s.form cls = .userClass c → s.findName? c.scope name = some x →
      ∃ t, Peeks s t ∧ answer cls (.member name) site s =
        if c.resolving then .ok .empty t
        else whileResolving cls
          ((answerWithin (questionDepth - 1)).all (s.types c.bases) (.member name) site) t) ∧
    (∀ v cls attributes name y, s.form v = .userInstance cls attributes → attributes.find? name = some y →
      ∀ q, answerWithin (questionDepth - 1) cls (.member name) site (after (addReader y site.unit) s) = .ok .top q →
        answer v (.member name) site s = .ok (s.types y) q) ∧
    (∀ m name base u node, s.boundIn? m name.name = some x →
      ∃ t, importMember u node base (some m) name s =
        (do bindName u node (boundName name) (.single (← resolveModule (below base name.name) u))) t) := by
  refine ⟨fun r record => ⟨fun values t run => r.top_of_run record full run, fun alone => r.run_of_top record full alone⟩,
    fun v cls attributes name hv own found q asks => ?_, fun cls c name hv own => ?_,
    fun v cls attributes name y hv own q asks => ?_, fun m name base u node bound => importMember_run bound full base⟩
  · have rule := userInstanceMember_run hv own (answerWithin (questionDepth - 1)) site
    obtain ⟨more, joined⟩ := Total.joinM (total_throughInstance v) found.items q
    refine ⟨after (ValueSet.joinM found.items (throughInstance v)) q, ?_⟩
    rw [full, bind_of_ok asks, bind_of_ok joined] at rule
    exact rule
  · obtain ⟨r, t, -, reads, rule⟩ := memberOf_class hv (answerWithin (questionDepth - 1)) name site
    have none : (s.ownTypes c name).isEmpty = true := by
      simp only [ownTypes, own, full]
      rfl
    rw [none, if_pos rfl] at rule
    exact ⟨t, .of_reads reads, rule⟩
  · have rule := userInstanceMember_run hv own (answerWithin (questionDepth - 1)) site
    rw [bind_of_ok asks] at rule
    have nothing : ValueSet.joinM ValueSet.top.items (throughInstance v) = pure .empty := rfl
    rw [nothing, pure_bind, join_empty] at rule
    exact rule

def twice (name : String) : List Stmt :=
  [.assign {} [.name {} name] (.literal {} (.int 1)), .assign {} [.name {} name] (.literal {} (.int 2))]

def narrow : Session := after load (blank { limits := { variableTypes := 1 } } {} [])

/-- An attribute of a class and a name of a module outgrow their caps; another module imports the name. -/
def saturating : List Operation :=
  [.addModule "m" "/m.py",
    .replaceTree ⟨0⟩ (some ⟨{}, .classDef {} "C" [] (twice "x") ::
      .assign {} [.name {} "c"] (.call {} (.name {} "C") [] []) :: twice "y"⟩),
    .analyzeEntry ⟨0⟩ .never, .addModule "n" "/n.py",
    .replaceTree ⟨1⟩ (some ⟨{}, [.importFrom {} "m" 0 [⟨"y", ""⟩]]⟩), .analyzeEntry ⟨1⟩ .never]

/-- The module itself reads its name as `top`. -/
theorem top_is_read_in_module :
    ∃ t, lookupName "y" ⟨default, ⟨0⟩⟩ (afterAll saturating narrow) = .ok .top t := by
  obtain ⟨record, full⟩ : (Reading.name "y").record? (afterAll saturating narrow) ⟨default, ⟨0⟩⟩ = some ⟨5⟩ ∧
      (afterAll saturating narrow).types ⟨5⟩ = .top := by
    decide +kernel
  exact ((top_is_read _ ⟨default, ⟨0⟩⟩ ⟨5⟩ full).1 (.name "y") record).2 rfl

/-- Neither the class and its instance nor the module that imports the name read anything of what outgrew its
cap. -/
theorem top_is_passed_over :
    let s := afterAll saturating narrow
    let site : Site := ⟨default, ⟨0⟩⟩
    (s.form ⟨1⟩).kind = .userClass ∧ ((s.form ⟨1⟩).scope?.bind fun c => s.findName? c "x") = some ⟨6⟩ ∧
      s.types ⟨6⟩ = .top ∧ yield? (answer ⟨1⟩ (.member "x") site) s = some .empty ∧
      (s.form ⟨2⟩).kind = .userInstance ∧ yield? (answer ⟨2⟩ (.member "x") site) s = some .empty ∧
      s.boundIn? ⟨0⟩ "y" = some ⟨5⟩ ∧ s.types ⟨5⟩ = .top ∧
      yield? (lookupName "y" ⟨default, ⟨2⟩⟩) s = some .empty := by
  decide +kernel

end Typeflow.Session
