import Typeflow.Proofs.Lookup.Deepen
import Typeflow.Proofs.Lookup.Graph
import Typeflow.Proofs.Lookup.Total

/-! Lookups of members come to an end where no value that they come across leads back to itself past all
classes. -/
namespace Typeflow.Session

variable {α β : Type} {host : Host} {P : Session → Prop}

namespace EndsOn

variable {Q : α → Session → Prop} {m : Analysis α}

theorem of_roams {Q : α → Prop} (roams : Roams noLicence .all m Q)
    (ends : ∀ s, RunsOn host s → P s → ∀ t, m s ≠ .error .endless t) : EndsOn host P m fun _ _ => True := by
  intro s runs holds
  refine ⟨ends s runs holds, fun a t run => ⟨?_, trivial⟩⟩
  have stays := runs.after (roams s (Realm.closed_all s))
  rwa [after_of_ok run] at stays

theorem of_total {Q : α → Prop} (total : Total m) (roams : Roams noLicence .all m Q) :
    EndsOn host P m fun _ _ => True := of_ends (.of_total total) roams

/-- A session is read, of which as much is known as before. -/
theorem look {f : Session → Analysis α} (h : ∀ s, P s → EndsOn host P (f s) Q) :
    EndsOn host P (get >>= f) Q :=
  read fun s _ holds => (h s holds).mono (by rintro _ rfl; exact holds)

/-- What is known of other things than the session. -/
theorem knowing {p : Prop} (h : p → EndsOn host P m Q) : EndsOn host (fun s => P s ∧ p) m Q :=
  fun s runs known => h known.2 s runs known.1

theorem ite {c : Prop} [Decidable c] {n : Analysis α} (hm : EndsOn host P m Q) (hn : EndsOn host P n Q) :
    EndsOn host P (if c then m else n) Q := by
  split
  · exact hm
  · exact hn

theorem keptOr {v : ValueId} {slot : Slot} {make : Analysis ValueId} {Q : ValueId → Prop}
    (roams : Roams noLicence .all (Session.keptOr v slot make) Q)
    (h : EndsOn host (fun _ => True) make fun _ _ => True) :
    EndsOn host P (Session.keptOr v slot make) fun _ _ => True := by
  refine of_roams roams fun s runs _ t ends => ?_
  cases hk : (s.value v).kept? slot with
  | some w =>
    simp only [Session.keptOr, read_run, hk] at ends
    cases ends
  | none =>
    simp only [Session.keptOr, read_run, hk] at ends
    cases made : make s with
    | ok w r =>
      rw [bind_of_ok made] at ends
      cases ends
    | error e r =>
      rw [bind_of_error made] at ends
      cases ends
      exact (h s runs trivial).1 _ made

section Leaves

variable (clear : ∀ o, ¬ host.Circular o)

/-- A value that was just looked up, as a set. -/
theorem single {found : Found} : EndsOn host P (Pure.pure (ValueSet.single found)) fun _ _ => True :=
  pure fun _ _ => trivial

theorem memberWrapper (v : ValueId) (name qualified : String) (wrapped : Found) (table : ValueId) :
    EndsOn host P (Session.memberWrapper v name qualified wrapped table) fun _ _ => True :=
  of_total (.bind (total_keptOr _ _ (total_newWrapper _ _ _)) fun _ => .pure _)
    (Roams.memberWrapper trivial _ _ (fun _ _ => trivial) _)

include clear in
theorem typeMember (cls : ValueId) (type : ObjectId) (name : String) :
    EndsOn host P (Session.typeMember cls type name) fun _ _ => True := by
  refine look fun s _ => ?_
  split
  · exact pure fun _ _ => trivial
  · refine bind (valueOf fun q _ => clear q) fun found => read fun t _ _ => ?_
    dsimp only
    split
    · exact single
    · exact ite (memberWrapper _ _ _ _ _) single

include clear in
theorem builtinClassMember (cls : ValueId) (type : ObjectId) (name : String) :
    EndsOn host P (Session.builtinClassMember cls type name) fun _ _ => True := by
  refine look fun s _ => ite (bind (keptOr (Q := Realm.all.value) ?_ ?_) fun _ => single) (typeMember clear _ _ _)
  · refine Roams.keptOr trivial (by nofun) (by nofun) (by nofun) (.bind (Roams.typeMember trivial _ _) fun _ _ => ?_)
    exact Roams.wrapAll (Realm.set_all _) _ (show Realm.all.override .newInstance from trivial)
  · refine bind (typeMember clear _ _ _) fun found => ?_
    exact of_total (total_wrapAll _ _ _)
      (Roams.wrapAll (Realm.set_all _) _ (show Realm.all.override .newInstance from trivial))

include clear in
theorem moduleMember (m : ValueId) (object : ObjectId) (name : String) :
    EndsOn host P (Session.moduleMember m object name) fun _ _ => True := by
  refine look fun s _ => ?_
  split
  · exact pure fun _ _ => trivial
  · exact bind (valueOf fun q _ => clear q) fun _ => read fun _ _ _ => ite (memberWrapper _ _ _ _ _) single

end Leaves

/-- What lookups leave alone stays known. -/
theorem lasting (stays : ∀ s t, Peeks s t → P s → P t) (looks : Looks m)
    (ends : EndsOn host P m fun _ _ => True) : EndsOn host P m fun _ => P := by
  intro s runs holds
  obtain ⟨finite, yields⟩ := ends s runs holds
  refine ⟨finite, fun a t run => ⟨(yields a t run).1, stays s t ?_ holds⟩⟩
  have peeks := looks s
  rwa [after_of_ok run] at peeks

theorem joinM {items : List α} {f : α → Analysis ValueSet} (h : ∀ a ∈ items, EndsOn host P (f a) fun _ => P) :
    EndsOn host P (ValueSet.joinM items f) fun _ => P := by
  have loop : ∀ (rest : List α) (acc : ValueSet), (∀ a ∈ rest, a ∈ items) →
      EndsOn host P (rest.foldlM (fun acc item => do return acc.join (← f item)) acc) fun _ => P := by
    intro rest
    induction rest with
    | nil => exact fun _ _ => pure fun _ holds => holds
    | cons a rest ih =>
      intro acc sub
      refine bind (Q := fun _ => P) ?_ fun grown => ?_
      · exact bind (h a (sub a List.mem_cons_self)) fun _ => pure fun _ holds => holds
      · exact ih grown fun b mem => sub b (List.mem_cons_of_mem _ mem)
  exact loop items .empty fun _ mem => mem

end EndsOn

def Builtin (w : ValueId) (s : Session) : Prop :=
  ∃ cls type, s.form w = .builtinInstance cls ∧ s.form cls = .builtinClass type

section Search

variable {s : Session} {name : String} {marked : Finset ValueId} {site : Site} {depth : Nat} {v w : ValueId}

/-- A lookup at this depth comes to an end whenever some classes are being searched. -/
def Answered (host : Host) (s : Session) (marked : Finset ValueId) (depth : Nat) (v : ValueId) (name : String)
    (site : Site) : Prop :=
  EndsOn host (Amid s marked) (answerWithin depth v (.member name) site) fun _ => Amid s marked

theorem EndsOn.amid {m : Analysis α} (looks : Looks m) (ends : EndsOn host (Amid s marked) m fun _ _ => True) :
    EndsOn host (Amid s marked) m fun _ => Amid s marked :=
  ends.lasting (fun _ _ peeks amid => amid.peeks peeks) looks

private theorem EndsOn.amid_of_total {m : Analysis α} {Q : α → Prop} (looks : Looks m) (total : Total m)
    (roams : Roams noLicence .all m Q) : EndsOn host (Amid s marked) m fun _ => Amid s marked :=
  .amid looks (.of_total total roams)

variable (clear : ∀ o, ¬ host.Circular o)

include clear in
/-- The instance of a builtin class asks its class, which asks nobody. -/
theorem EndsOn.builtin (deep : 2 ≤ depth) :
    EndsOn host (fun t => Amid s marked t ∧ Builtin w t) (answerWithin depth w (.member name) site)
      fun _ => Amid s marked := by
  obtain ⟨depth, rfl⟩ : ∃ n, depth = n + 2 := ⟨depth - 2, by omega⟩
  intro t runs holds
  obtain ⟨cls, type, self, made⟩ := holds.2
  have cls_ends : EndsOn host (· = t) (answerWithin (depth + 1) cls (.member name) site) fun _ => Amid s marked := by
    have rule : EndsOn host (· = t) (answerWithin (depth + 1) cls (.member name) site) fun _ _ => True := by
      refine read fun r _ same => ?_
      subst same
      rw [made]
      exact builtinClassMember clear cls type name
    intro r runs same
    subst same
    obtain ⟨finite, yields⟩ := rule r runs rfl
    refine ⟨finite, fun a q run => ⟨(yields a q run).1, holds.1.peeks ?_⟩⟩
    have peeks := Looks.member (depth + 1) cls name site r
    rwa [after_of_ok run] at peeks
  have rule : EndsOn host (· = t) (answerWithin (depth + 2) w (.member name) site) fun _ => Amid s marked := by
    refine read fun r _ same => ?_
    subst same
    rw [self]
    exact bind cls_ends fun found => joinM fun x _ =>
      .amid_of_total (.throughProperty x) (total_throughProperty x) (.throughProperty trivial)
  exact rule t runs rfl

/-- The instance of a builtin class that is handed out is the one that the class keeps. -/
theorem exemplar?_of_builtinInstance {cls : ValueId} {t r : Session} (run : builtinInstance cls t = .ok (some w) r) :
    r.exemplar? cls = some w ∧ ∃ type, r.form cls = .builtinClass type := by
  have peeks := Looks.builtinInstance cls t
  rw [after_of_ok run] at peeks
  cases hf : (t.value cls).form with
  | builtinClass type =>
    refine ⟨?_, type, peeks.keeps hf nofun nofun nofun⟩
    have there : cls.index < t.values.size := index_lt_of_form (by rw [form, hf]; nofun)
    simp only [builtinInstance, read_run, hf] at run
    obtain ⟨made, q, kept, ends⟩ := bind_eq_ok run
    cases ends
    cases hk : t.exemplar? cls with
    | some old =>
      rw [keptOr_run_of_some hk] at kept
      cases kept
      exact hk
    | none =>
      rw [keptOr_run_of_none hk there] at kept
      cases kept
      rw [exemplar?_withInstance rfl there, if_pos rfl]
  | _ =>
    simp only [builtinInstance, read_run, hf] at run
    cases run

include clear in
/-- The instance of a type was there before, or it is the instance of a builtin class. -/
theorem EndsOn.exemplarMember (deep : 2 ≤ depth)
    (onward : ∀ w, s.Passes v w → Answered host s marked depth w name site) :
    EndsOn host (Amid s marked)
      (Session.exemplarMember (answerWithin depth) (s.form v).exemplified name site) fun _ => Amid s marked := by
  cases ht : (s.form v).exemplified with
  | none => exact pure fun _ amid => amid
  | some cls =>
    have offers : EndsOn host (Amid s marked) (Session.builtinInstance cls) fun found t =>
        Amid s marked t ∧ ∀ w, found = some w → s.Passes v w ∨ Builtin w t := by
      intro t runs amid
      obtain ⟨finite, yields⟩ := EndsOn.amid_of_total (.builtinInstance cls) (total_builtinInstance cls)
        (Roams.builtinInstance (L := noLicence) trivial) t runs amid
      refine ⟨finite, fun found r run => ⟨(yields found r run).1, (yields found r run).2, ?_⟩⟩
      rintro w rfl
      have amid := (yields _ r run).2
      obtain ⟨kept, type, made⟩ := exemplar?_of_builtinInstance run
      rcases amid.made cls w kept with old | self | user
      · have there : cls.index < s.values.size := by
          by_contra outside
          rw [exemplar?, value_of_le (Nat.le_of_not_lt outside)] at old
          cases old
        refine .inl (.exemplar ht (?_ : s.form cls = .builtinClass type) old)
        have kind := amid.kind there
        rw [made] at kind
        rw [← amid.form there (by rw [← kind]; rintro ⟨⟩) (by rw [← kind]; rintro ⟨⟩), made]
      · exact .inr ⟨cls, type, self, made⟩
      · rw [made] at user
        cases user
    refine bind offers fun found => ?_
    cases found with
    | none => exact pure fun _ known => known.1
    | some w =>
      intro t runs known
      rcases known.2 w rfl with step | made
      · exact onward w step t runs known.1
      · exact EndsOn.builtin clear deep t runs ⟨known.1, made⟩

theorem EndsOn.sequenceMutator (v : ValueId) (name : String) (override : Override) (generic : ValueSet)
    (own : mutatorOf v name = some override) :
    EndsOn host (Amid s marked) (Session.sequenceMutator v name override generic) fun _ => Amid s marked :=
  .amid_of_total (.keptSet (.wrapAll _ _ _) nofun) (.bind (total_keptOr _ _ (total_wrapAll _ _ _)) fun _ => .pure _)
    (.sequenceMutator (R := .all) trivial _ (Roams.override_mutatorOf trivial own) (Realm.set_all _))

include clear in
theorem EndsOn.sequenceMember (deep : 2 ≤ depth) {type : Found} (own : (s.form v).exemplified = type)
    (onward : ∀ w, s.Passes v w → Answered host s marked depth w name site) :
    EndsOn host (Amid s marked) (Session.sequenceMember (answerWithin depth) v type name site)
      fun _ => Amid s marked := by
  subst own
  refine bind (exemplarMember clear deep onward) fun generic => ?_
  split
  · next override changes =>
    exact look fun t _ => ite (sequenceMutator v name override generic changes) (pure fun _ amid => amid)
  · exact pure fun _ amid => amid

include clear in
theorem EndsOn.iteratorMember (deep : 2 ≤ depth) {type : Found} (own : (s.form v).exemplified = type)
    (onward : ∀ w, s.Passes v w → Answered host s marked depth w name site) :
    EndsOn host (Amid s marked) (Session.iteratorMember (answerWithin depth) v type name site)
      fun _ => Amid s marked := by
  subst own
  refine bind (exemplarMember clear deep onward) fun generic => look fun t _ => ite (pure fun _ amid => amid) ?_
  exact .amid_of_total (.keptSet (.wrapAll _ _ _) nofun) (.bind (total_keptOr _ _ (total_wrapAll _ _ _)) fun _ => .pure _)
    (Roams.keptSet trivial (by nofun) (by nofun) (by nofun)
      (Roams.wrapAll (Realm.set_all _) _ (show Realm.all.override (.nextElement v) from trivial)))

/-- Lookups leave the types of records as they are. -/
theorem EndsOn.readAt (x : VarId) :
    EndsOn host (Amid s marked) (Session.readAt x site) fun values t => Amid s marked t ∧ values = s.types x := by
  intro t runs amid
  obtain ⟨finite, yields⟩ := EndsOn.amid_of_total (.readAt x site) (total_readAt x site)
    (Roams.readAt (R := .all) (L := noLicence) trivial site) t runs amid
  refine ⟨finite, fun values r run => ⟨(yields values r run).1, (yields values r run).2, ?_⟩⟩
  rw [← (yields values r run).2.types]
  cases run
  rfl

/-- A name of a class that has no types now had none before. -/
theorem EndsOn.nameIn {c : ScopeId} (inner : s.Inner c) :
    EndsOn host (Amid s marked) (Session.nameIn c name)
      fun x t => Amid s marked t ∧ ((s.types x).isEmpty = true → s.Lacks c name) := by
  intro t runs amid
  obtain ⟨finite, yields⟩ := EndsOn.amid_of_total (.nameIn c name) (total_nameIn c name)
    (Roams.nameIn (L := noLicence) (R := .all) c name) t runs amid
  refine ⟨finite, fun x r run => ⟨(yields x r run).1, (yields x r run).2, fun none => (amid.lacks c name inner).1 ?_⟩⟩
  cases hf : t.findName? c name with
  | none =>
    intro y hy
    rw [hf] at hy
    cases hy
  | some y =>
    rw [nameIn_of_some hf] at run
    cases run
    intro z hz
    rw [hf] at hz
    cases hz
    rwa [amid.types]

/-- The bases of a class are searched once, under the mark of the class. -/
theorem EndsOn.whileResolving {cls : ValueId} {search : Analysis α} (looks : Looks search)
    (kind : (s.form cls).kind = .userClass)
    (ends : EndsOn host (Amid s (insert cls marked)) search fun _ => Amid s (insert cls marked)) :
    EndsOn host (fun t => Amid s marked t ∧ t.isResolving cls = false) (Session.whileResolving cls search)
      fun _ => Amid s marked := by
  intro t runs known
  obtain ⟨amid, idle⟩ := known
  have stays : ∀ on r, RunsOn host r → RunsOn host (after (setResolving cls on) r) := fun on r runs =>
    runs.after (Roams.setResolving (L := noLicence) cls on r (Realm.closed_all r))
  obtain ⟨finite, yields⟩ := ends _ (stays true t runs) (amid.search kind)
  have peeks := Looks.whileResolving looks idle
  have whole := whileResolving_run cls t search
  cases run : search (after (setResolving cls true) t) with
  | ok a q =>
    rw [run] at whole
    rw [after_of_ok whole] at peeks
    refine ⟨fun r same => ?_, fun b r same => ?_⟩
    · rw [whole] at same
      cases same
    · rw [whole] at same
      cases same
      exact ⟨stays false q (yields a q run).1, amid.peeks peeks⟩
  | error e q =>
    rw [run] at whole
    refine ⟨fun r same => ?_, fun b r same => ?_⟩
    · rw [whole] at same
      cases same
      exact finite q run
    · rw [whole] at same
      cases same

theorem EndsOn.userClassMember {c d : UserClass} (hv : s.form v = .userClass c) (inner : s.Inner c.scope)
    (same : d.scope = c.scope ∧ d.bases = c.bases)
    (bases : v ∉ marked → ∀ w, s.Seeks name v w → Answered host s (insert v marked) depth w name site) :
    EndsOn host (Amid s marked) (Session.userClassMember (answerWithin depth) v d name site)
      fun _ => Amid s marked := by
  unfold Session.userClassMember
  rw [same.1, same.2]
  refine bind (nameIn inner) fun x => knowing fun lacks => bind (readAt x) fun own => knowing fun same => ?_
  subst same
  split
  · exact pure fun _ amid => amid
  · next none =>
    have free : s.Lacks c.scope name := lacks (by simpa using none)
    refine bind (readAt c.bases) fun values => knowing fun same => EndsOn.read fun t _ amid => ?_
    subst same
    have mark : t.isResolving v = (c.resolving || decide (v ∈ marked)) := by
      rw [isResolving_eq, amid.mark, hv, Form.marked]
    split
    · exact pure (by rintro _ rfl; exact amid)
    · next idle =>
      have unmarked : c.resolving = false ∧ v ∉ marked := by simpa [mark] using idle
      have searched : EndsOn host (Amid s (insert v marked))
          ((answerWithin depth).all (s.types c.bases) (.member name) site) fun _ => Amid s (insert v marked) :=
        joinM fun w mem => bases unmarked.2 w (.inherits hv unmarked.1 free mem)
      refine (whileResolving (.joinM (fun base => .member depth base name site) _) (by rw [hv]; rfl) searched).mono ?_
      rintro _ rfl
      exact ⟨amid, by rw [mark, unmarked.1, decide_eq_false unmarked.2]; rfl⟩

theorem EndsOn.userInstanceMember {cls : ValueId} (asks : Answered host s marked depth cls name site) :
    EndsOn host (Amid s marked) (Session.userInstanceMember (answerWithin depth) v cls name site)
      fun _ => Amid s marked := by
  have rest : ∀ own : ValueSet, EndsOn host (Amid s marked) (do
      let fromClass ← answerWithin depth cls (.member name) site
      return own.join (← ValueSet.joinM fromClass.items (Session.throughInstance v))) fun _ => Amid s marked :=
    fun own => bind asks fun found => bind (joinM fun x _ => .amid_of_total (.throughInstance v x)
      (total_throughInstance v x) (.throughInstance trivial trivial)) fun _ => pure fun _ amid => amid
  refine bind (.amid_of_total (.attributeOf v name) (total_attributeOf v name)
    (Roams.attributeOf (R := .all) (L := noLicence) trivial name)) fun found => ?_
  cases found with
  | some x =>
    exact bind (.amid_of_total (.readAt x site) (total_readAt x site)
      (Roams.readAt (R := .all) (L := noLicence) trivial site)) rest
  | none => exact bind (pure fun _ amid => amid) rest

theorem EndsOn.superMember {cls : ValueId} {instances : ValueSet} (hv : s.form v = .super cls instances)
    (onward : ∀ w, s.Passes v w → Answered host s marked depth w name site) :
    EndsOn host (Amid s marked) (Session.superMember (answerWithin depth) cls instances name site)
      fun _ => Amid s marked := by
  refine look fun t amid => ?_
  cases ht : t.form cls with
  | userClass d =>
    have there : cls.index < s.values.size := amid.owns cls (by rw [ht]; nofun)
    have kind := amid.kind there
    rw [ht] at kind
    cases hc : s.form cls with
    | userClass c =>
      obtain ⟨on, also⟩ := amid.userClass hc
      rw [ht] at also
      cases also
      refine bind (readAt c.bases) fun values => knowing fun same => joinM fun base mem => ?_
      refine bind (onward base (.super hv hc (same ▸ mem))) fun found => joinM fun x _ => ?_
      exact .amid_of_total (.throughSuper instances x) (total_throughSuper instances x)
        (.throughSuper (Realm.set_all _) trivial)
    | _ =>
      rw [hc] at kind
      cases kind
  | _ => exact pure fun _ amid => amid

/-- What is no set of alternatives is asked once for a child. -/
theorem EndsOn.childMember (there : v.index < s.values.size) (simple : (s.form v).kind ≠ .multipleMembers) :
    EndsOn host (Amid s marked) (Session.childModule v name) fun _ => Amid s marked := by
  refine .amid (.childModule v name) fun t runs amid => ?_
  have single : Single (some v) t := by
    rintro m ⟨⟩
    rwa [amid.kind there]
  obtain ⟨finite, yields⟩ := childModule v name t runs single
  exact ⟨finite, fun a r run => ⟨(yields a r run).1, trivial⟩⟩

theorem EndsOn.projectMember (there : v.index < s.values.size) (simple : (s.form v).kind ≠ .multipleMembers)
    (p : ProjectModule) :
    EndsOn host (Amid s marked) (Session.projectMember v p name site) fun _ => Amid s marked := by
  refine bind (.amid_of_total (.nameIn _ _) (total_nameIn _ _) (Roams.nameIn (R := .all) (L := noLicence) _ _))
    fun x => bind ?_ fun _ => look fun t _ => ite (pure fun _ amid => amid)
      (bind (childMember there simple) fun _ => pure fun _ amid => amid)
  exact .amid_of_total (Peeks.addReader x site.unit) (.modify _) (Roams.addReader (L := noLicence) (R := .all) x site.unit)

include clear in
/-- The rule for members, as long as all that it asks is answered. -/
theorem EndsOn.memberOf (own : ∀ v c, s.form v = .userClass c → s.Inner c.scope) (there : v.index < s.values.size)
    (deep : 2 ≤ depth) (onward : ∀ w, s.Passes v w → Answered host s marked depth w name site)
    (bases : v ∉ marked → ∀ w, s.Seeks name v w → (s.form v).kind = .userClass →
      Answered host s (insert v marked) depth w name site) :
    EndsOn host (Amid s marked) (Session.memberOf (answerWithin depth) v name site) fun _ => Amid s marked := by
  refine look fun t amid => ?_
  cases hv : s.form v
  case userClass c =>
    obtain ⟨on, ht⟩ := amid.userClass hv
    rw [ht]
    exact userClassMember hv (own v c hv) ⟨rfl, rfl⟩ fun fresh w step => bases fresh w step (by rw [hv]; rfl)
  case userInstance cls attributes =>
    obtain ⟨more, ht⟩ := amid.userInstance hv
    rw [ht]
    exact userInstanceMember (onward cls (.userInstance hv))
  all_goals
    rw [amid.form there (by rw [hv]; nofun) (by rw [hv]; nofun), hv]
    dsimp only
  case builtinClass type => exact .amid (.builtinClassMember v type name) (builtinClassMember clear v type name)
  case builtinInstance cls =>
    exact bind (onward cls (.builtinInstance hv)) fun found => joinM fun x _ =>
      .amid_of_total (.throughProperty x) (total_throughProperty x) (.throughProperty trivial)
  case builtinModule object =>
    refine bind (.amid (.moduleMember v object name) (moduleMember clear v object name)) fun found => ?_
    refine ite (bind ?_ fun _ => pure fun _ amid => amid) (pure fun _ amid => amid)
    exact childMember there (by rw [hv]; nofun)
  case constant type value => exact (by rw [hv]; rfl : (s.form v).exemplified = type) ▸ exemplarMember clear deep onward
  case reflected object =>
    refine look fun r _ => ?_
    split
    · exact pure fun _ amid => amid
    · exact bind (.amid (.valueOf _) (valueOf fun q _ => clear q)) fun _ => pure fun _ amid => amid
  case multiple members => exact joinM fun member mem => onward member (.multiple hv mem)
  case module p => exact projectMember there (by rw [hv]; nofun) p
  case function f =>
    refine ite (look fun r _ => bind ?_ fun _ => pure fun _ amid => amid) (pure fun _ amid => amid)
    exact .amid_of_total (.constantValue _) (total_constantValue _) (Roams.constantValue (R := .all) _)
  case sequence type elements => exact sequenceMember clear deep (by rw [hv]; rfl) onward
  case iterator type elements => exact iteratorMember clear deep (by rw [hv]; rfl) onward
  case super cls instances => exact superMember hv onward
  case wrapper x =>
    split
    · exact pure fun _ amid => amid
    · next w wraps => exact onward w (.wrapper hv wraps)
  all_goals exact pure fun _ amid => amid

include clear in
/-- A lookup comes to an end within the depth that the graph gives. Each value that it goes on to lies deeper, and a
class that is searched is not searched again. -/
theorem Answered.member (own : ∀ v c, s.form v = .userClass c → s.Inner c.scope) (grounded : s.Grounded name v)
    (unwinds : s.Unwinds name v) (deep : s.searchDepth name marked v ≤ depth) :
    Answered host s marked depth v name site := by
  induction depth generalizing v marked with
  | zero =>
    unfold searchDepth at deep
    omega
  | succ depth ih =>
    have there := grounded v .refl
    refine EndsOn.memberOf clear own there ?_ (fun w step => ?_) fun fresh w step cls => ?_
    · have here := onward_pos there
      unfold searchDepth at deep
      omega
    · have less : s.searchDepth name marked w < s.searchDepth name marked v :=
        searchDepth_lt_of_passes there (unwinds v .refl) step marked
      exact ih (grounded.next (.passes step)) (unwinds.next (.passes step)) (by omega)
    · have less := searchDepth_lt_of_class there cls fresh step
      exact ih (grounded.next step) (unwinds.next step) (by omega)

end Search

end Typeflow.Session
