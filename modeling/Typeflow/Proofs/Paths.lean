import Typeflow.Proofs.Alternatives.Meaning
import Typeflow.Proofs.Resolution

/-! Dotted names through ambiguous bindings of the host: what a path leads to stands for the values of all objects
that it can lead to, whichever alternatives are taken on the way. -/
namespace Typeflow

namespace Host

variable {h g : Host} {o p r : ObjectId} {object : Option ObjectId} {name : String} {names : List String}

/-- Names lead from an object to another: from a module, type or container to the member, and at an ambiguous binding
from any alternative. An absent member or alternative leads nowhere, and so does any other object while names are
left. -/
inductive LeadsTo (host : Host) : Option ObjectId → List String → ObjectId → Prop
  | here (o : ObjectId) : LeadsTo host (some o) [] o
  | member {o r : ObjectId} {name : String} {names : List String} (step : host.Contains o)
      (rest : LeadsTo host (host.member? o name) names r) : LeadsTo host (some o) (name :: names) r
  | alternative {o p r : ObjectId} {name : String} {names : List String} (step : host.Alternative o p)
      (rest : LeadsTo host (some p) (name :: names) r) : LeadsTo host (some o) (name :: names) r

/-- The host has the object, knows its kind, and a number that it stands for equals itself. -/
structure Declares (host : Host) (o : ObjectId) : Prop where
  there : o.index < host.objects.size
  known : host.classify o ≠ .unknown
  equals : ∀ value, (host.object o).shape = .primitive value → (value == value) = true

/-- What is come across on the way is declared, and no ambiguous binding there is among its own alternatives. -/
structure Clear (host : Host) (object : Option ObjectId) (names : List String) : Prop where
  declares : ∀ q, host.Meets object names q → host.Declares q
  settles : host.Settles object names

namespace Clear

theorem here (clear : h.Clear (some o) names) : h.Declares o := clear.declares o (.here o names)

theorem alternative (clear : h.Clear (some o) names) (step : h.Alternative o p) : h.Clear (some p) names where
  declares q meets := clear.declares q (.alternative step meets)
  settles := clear.settles.alternative step

theorem member (clear : h.Clear (some o) (name :: names)) (step : h.Contains o) :
    h.Clear (h.member? o name) names where
  declares q meets := clear.declares q (.member step meets)
  settles := clear.settles.member step

/-- An alternative may be absent. -/
theorem option (clear : h.Clear (some o) names) (several : h.classify o = .multipleMembers)
    (mem : object ∈ h.alternatives o) : h.Clear object names := by
  cases object with
  | none => exact ⟨(fun q meets => nomatch meets), fun q meets => nomatch meets⟩
  | some p => exact clear.alternative ⟨several, mem⟩

theorem plain (clear : h.Clear object names) : h.Plain object := by
  have met : ∀ {object q}, h.Involves object q → h.Meets object names q := by
    intro object q involved
    induction involved with
    | self o => exact .here o names
    | @alternative o x a several mem rest ih =>
      cases a with
      | none => cases rest
      | some p => exact .alternative ⟨several, mem⟩ ih
  intro o involved
  have declared := clear.declares o (met involved)
  exact ⟨declared.there, declared.equals⟩

end Clear

private theorem leadsTo_here : h.LeadsTo (some o) [] r ↔ r = o := by
  constructor
  · rintro ⟨⟩
    rfl
  · rintro rfl
    exact .here r

private theorem Contains.not_several (step : h.Contains o) : h.classify o ≠ .multipleMembers := by
  rcases step with kind | kind | kind <;> rw [kind] <;> rintro ⟨⟩

private theorem leadsTo_of_contains (step : h.Contains o) :
    h.LeadsTo (some o) (name :: names) r ↔ h.LeadsTo (h.member? o name) names r := by
  constructor
  · intro leads
    cases leads with
    | member _ rest => exact rest
    | alternative other _ => exact absurd other.1 step.not_several
  · exact .member step

private theorem leadsTo_of_several (several : h.classify o = .multipleMembers) :
    h.LeadsTo (some o) (name :: names) r ↔ ∃ a ∈ h.alternatives o, h.LeadsTo a (name :: names) r := by
  constructor
  · intro leads
    cases leads with
    | member other _ => exact absurd several other.not_several
    | @alternative _ p _ _ _ step rest => exact ⟨some p, step.2, rest⟩
  · rintro ⟨a, mem, rest⟩
    cases a with
    | none => cases rest
    | some p => exact .alternative ⟨several, mem⟩ rest

/-- The same objects, whose alternatives may be in another order or given more than once. -/
structure Reorders (h g : Host) : Prop where
  classify : ∀ o, g.classify o = h.classify o
  member? : ∀ o name, g.member? o name = h.member? o name
  alternatives : ∀ o a, a ∈ g.alternatives o ↔ a ∈ h.alternatives o

namespace Reorders

theorem symm (same : h.Reorders g) : g.Reorders h where
  classify o := (same.classify o).symm
  member? o name := (same.member? o name).symm
  alternatives o a := (same.alternatives o a).symm

theorem leads (same : h.Reorders g) (leads : h.LeadsTo object names r) : g.LeadsTo object names r := by
  induction leads with
  | here o => exact .here o
  | member step _ ih =>
    rw [← same.member?] at ih
    exact .member (by rwa [Contains, same.classify]) ih
  | alternative step _ ih => exact .alternative ⟨(same.classify _).trans step.1, (same.alternatives _ _).2 step.2⟩ ih

end Reorders

end Host

namespace Session

variable {α β : Type} {s t q : Session} {host : Host} {o r : ObjectId} {object : Option ObjectId}
  {names : List String} {found : Found}

private theorem total_objectValue {make : Analysis ValueId} (h : Total make) : Total (objectValue o make) :=
  total_recall (.bind (.modify _) fun _ => .bind h fun _ => .pure _)

/-- An object that is what it claims to be has a value, unless it is ambiguous. -/
theorem total_simpleValue {kind : HostKind} (single : kind ≠ .multipleMembers) (known : kind ≠ .unknown) :
    Total (simpleValue o kind) := by
  cases kind with
  | multipleMembers => exact absurd rfl single
  | unknown => exact absurd rfl known
  | type => exact total_classOf o
  | module => exact (total_objectValue (.read fun _ => .modifyGet _) : Total (moduleOfObject o))
  | function | methodDescriptor => exact total_objectValue (.read fun _ => .modifyGet _)
  | property | memberContainer => exact total_objectValue (.modifyGet _)
  | constant =>
    exact total_objectValue (.read fun _ => .bind (total_classOf? _) fun _ => .bind (total_classNameOr _ _) fun _ =>
      .modifyGet _)
  | primitive =>
    refine .read fun s => ?_
    split
    · exact total_constantValue _
    · exact .pure _

/-- A session on the host whose memo tables can be relied on. -/
structure Fit (host : Host) (s : Session) : Prop extends RunsOn host s where
  reliable : Reliable s

/-- Nothing about objects and values that was settled before is different. -/
structure Later (s t : Session) : Prop where
  remembers : Remembers s t
  fixes : Fixes s t

namespace Later

theorem refl (s : Session) : Later s s := ⟨.refl s, .refl s⟩

theorem trans (h : Later s t) (g : Later t q) : Later s q := ⟨h.remembers.trans g.remembers, h.fixes.trans g.fixes⟩

end Later

theorem Fit.after {m : Analysis α} {Q : α → Prop} (fit : Fit host s)
    (proceeds : Proceeds (Touch noLicence .all) m Q s) : Fit host (after m s) ∧ Later s (after m s) :=
  ⟨⟨fit.toRunsOn.after proceeds, fit.reliable.of_touches proceeds.1⟩, .of_proceeds proceeds,
    Fixes.spans.all (fun _ _ => Fixes.spans.touch) proceeds.1⟩

/-- Begun in such a session in which `P` holds, the action runs out of steps, or yields what `Q` holds of. -/
def Reaches (host : Host) (P : Session → Prop) (m : Analysis α) (Q : α → Session → Prop) : Prop :=
  ∀ s, Fit host s → P s → (∃ t, m s = .error .endless t) ∨
    ∃ a t, m s = .ok a t ∧ Fit host t ∧ Later s t ∧ Q a t

namespace Reaches

variable {P : Session → Prop} {Q : α → Session → Prop} {m : Analysis α} {f : α → Analysis β}

theorem of_total {R : α → Prop} (total : Total m) (proceeds : ∀ s, P s → Proceeds (Touch noLicence .all) m R s)
    (right : ∀ s a t, Fit host s → P s → m s = .ok a t → Fit host t → Q a t) : Reaches host P m Q := by
  intro s fit holds
  obtain ⟨a, run⟩ := total s
  obtain ⟨next, later⟩ := fit.after (proceeds s holds)
  exact .inr ⟨a, _, run, next, later, right s a _ fit holds run next⟩

theorem pure {a : α} (h : ∀ s, P s → Q a s) : Reaches host P (Pure.pure a) Q :=
  fun s fit holds => .inr ⟨a, s, rfl, fit, .refl s, h s holds⟩

theorem bind {Q' : β → Session → Prop} (hm : Reaches host P m Q) (hf : ∀ a, Reaches host (Q a) (f a) Q') :
    Reaches host P (m >>= f) Q' := by
  intro s fit holds
  rcases hm s fit holds with ⟨t, ends⟩ | ⟨a, t, run, next, later, right⟩
  · exact .inl ⟨t, bind_of_error ends⟩
  · rw [bind_of_ok run]
    rcases hf a t next right with ends | ⟨b, q, more, last, onward, good⟩
    · exact .inl ends
    · exact .inr ⟨b, q, more, last, later.trans onward, good⟩

theorem read {f : Session → Analysis α} (h : ∀ s, Fit host s → P s → Reaches host (· = s) (f s) Q) :
    Reaches host P (get >>= f) Q := fun s fit holds => h s fit holds s fit rfl

theorem mono {P' : Session → Prop} {Q' : α → Session → Prop} (h : Reaches host P m Q) (holds : ∀ s, P' s → P s)
    (more : ∀ a t, Q a t → Q' a t) : Reaches host P' m Q' := fun s fit hs => by
  rcases h s fit (holds s hs) with ends | ⟨a, t, run, next, later, right⟩
  · exact .inl ends
  · exact .inr ⟨a, t, run, next, later, more a t right⟩

/-- Each item has its result and each result its item, and what holds of a result when it is found still holds when
all are. -/
theorem mapM {G : α → β → Session → Prop} (stays : ∀ a b s t, Later s t → G a b s → G a b t) {items : List α}
    (each : ∀ a ∈ items, Reaches host (fun _ => True) (f a) (G a)) :
    Reaches host P (items.mapM f) fun results t =>
      (∀ a ∈ items, ∃ b ∈ results, G a b t) ∧ ∀ b ∈ results, ∃ a ∈ items, G a b t := by
  induction items generalizing P with
  | nil => exact pure fun _ _ => ⟨nofun, nofun⟩
  | cons a rest ih =>
    rw [List.mapM_cons]
    intro s fit _
    rcases each a List.mem_cons_self s fit trivial with ⟨t, ends⟩ | ⟨b, t, run, next, later, first⟩
    · exact .inl ⟨t, bind_of_error ends⟩
    · rw [bind_of_ok run]
      have others := ih (P := fun _ => True) (fun c mem => each c (List.mem_cons_of_mem a mem)) t next trivial
      rcases others with ⟨q, ends⟩ | ⟨bs, q, more, last, onward, forth, back⟩
      · exact .inl ⟨q, bind_of_error ends⟩
      · rw [bind_of_ok more]
        have first := stays a b t q onward first
        refine .inr ⟨b :: bs, q, rfl, last, later.trans onward, ?_, ?_⟩
        · exact List.forall_mem_cons.2 ⟨⟨b, List.mem_cons_self, first⟩, fun c mem => by
            obtain ⟨d, md, right⟩ := forth c mem
            exact ⟨d, List.mem_cons_of_mem b md, right⟩⟩
        · exact List.forall_mem_cons.2 ⟨⟨a, List.mem_cons_self, first⟩, fun d mem => by
            obtain ⟨c, mc, right⟩ := back d mem
            exact ⟨c, List.mem_cons_of_mem a mc, right⟩⟩

theorem aggregate (members : List Found) : Reaches host (fun s => ∀ f ∈ members, s.Firm f) (Session.aggregate members)
    fun found t => t.Firm found ∧ ∀ u, u ∈ t.meanings found ↔ ∃ f ∈ members, u ∈ t.meanings f := by
  intro s fit firm
  obtain ⟨found, t, run, right⟩ := aggregate_meanings fit.reliable firm
  have roams : Roams noLicence .all (Session.aggregate members) Realm.all.found := .aggregate fun _ _ _ _ => trivial
  obtain ⟨next, later⟩ := fit.after (roams s (Realm.closed_all s))
  rw [after_of_ok run] at next later
  exact .inr ⟨found, t, run, next, later, right⟩

/-- A constant is no set of alternatives. -/
theorem constantValue {value : Constant} (equals : (value == value) = true) :
    Reaches host P (Session.constantValue value) fun found t => t.Firm found := by
  refine of_total (total_constantValue value) (fun s _ => Roams.constantValue value s (Realm.closed_all s)) ?_
  rintro s found t - - run fit v rfl
  have kept : t.constants.find? value = some (some v) :=
    CacheField.find?_of_recall (fun _ _ => rfl) equals run
  obtain ⟨there, kind⟩ := fit.reliable.truthful.constants value v kept
  exact .single there (by rw [kind]; rintro ⟨⟩)

/-- The value of an object that is not ambiguous is no set of alternatives either. -/
theorem simpleValue (declared : host.Declares o) (single : host.classify o ≠ .multipleMembers) :
    Reaches host P (Session.simpleValue o (host.classify o)) fun found t => t.Firm found := by
  have kept : ∀ make, Session.simpleValue o (host.classify o) = Session.objectValue o make →
      Reaches host P (Session.simpleValue o (host.classify o)) fun found t => t.Firm found := by
    intro make same s fit _
    refine of_total (P := (· = s)) (R := Realm.all.found) (total_simpleValue single declared.known) ?_ ?_ s fit rfl
    · rintro q rfl
      exact Roams.simpleValue (Realm.closed_all q) (fit.alike.classify o)
    · rintro q found t - - run next v rfl
      rw [same] at run
      have finds : t.objectValues.find? o = some (some v) :=
        CacheField.find?_of_recall (fun _ _ => rfl) (by simp) run
      obtain ⟨there, -, kind⟩ := next.reliable.rest.hosted o v finds
      exact .single there kind
  cases kind : host.classify o with
  | primitive =>
    refine read fun s fit _ => ?_
    rw [fit.host.object o declared.there]
    split
    · next value shape => exact constantValue (declared.equals value shape)
    · exact pure fun _ _ => .none
  | multipleMembers => exact absurd kind single
  | unknown => exact absurd kind declared.known
  | type => exact kind ▸ kept _ (by rw [kind, Session.simpleValue, Session.classOf])
  | module => exact kind ▸ kept _ (by rw [kind, Session.simpleValue, Session.moduleOfObject])
  | _ => exact kind ▸ kept _ (by rw [kind, Session.simpleValue])

/-- The value of an object is a proper one. -/
theorem valueOfWithin (depth : Nat) (clear : host.Clear object []) :
    Reaches host P (Session.valueOfWithin depth object) fun found t => t.Firm found := by
  induction depth generalizing object P with
  | zero =>
    cases object with
    | none => exact constantValue rfl
    | some o => exact fun s _ _ => .inl ⟨s, rfl⟩
  | succ depth ih =>
    cases object with
    | none => exact constantValue rfl
    | some o =>
      refine read fun s fit _ => ?_
      dsimp only
      rw [fit.alike.classify, fit.alike.alternatives]
      split
      · next several =>
        refine bind (mapM (fun _ _ _ _ later firm => firm.fixes later.fixes) fun a mem =>
          ih (clear.option several mem)) fun members => ?_
        refine (aggregate members).mono (fun t firm f mem => ?_) fun _ _ right => right.1
        obtain ⟨a, -, holds⟩ := firm.2 f mem
        exact holds
      · next single => exact simpleValue clear.here single

/-- From then on the object has the value. -/
theorem valueOf (clear : host.Clear object []) :
    Reaches host P (Session.valueOf object) fun found t => Lasting t (Session.valueOf object) found ∧ t.Firm found := by
  intro s fit _
  have plain : s.host.Plain object := clear.plain.grows fit.host
  have found : Reaches host (fun _ => True) (Session.valueOf object) fun found t => t.Firm found :=
    read fun _ _ _ => valueOfWithin _ clear
  rcases found s fit trivial with ends | ⟨found, t, run, next, later, firm⟩
  · exact .inl ends
  · obtain ⟨-, lasting, -⟩ := Repeats.valueOf object s fit.reliable.rest plain found t run
    exact .inr ⟨found, t, run, next, later, lasting, firm⟩

end Reaches

/-- What is asked for lastingly is settled. -/
theorem Lasting.unique {m : Analysis α} {a b : α} (h : Lasting s m a) (g : Lasting s m b) : a = b := by
  obtain ⟨_, run, -⟩ := h s (.refl s)
  obtain ⟨_, again, -⟩ := g s (.refl s)
  rw [run] at again
  cases again
  rfl

/-- The object has the value from now on. -/
def HasValue (s : Session) (r : ObjectId) (value : Found) : Prop := Lasting s (valueOf (some r)) value

/-- What has been found stands for the values of all objects that the names can lead to. -/
structure Gathers (host : Host) (object : Option ObjectId) (names : List String) (found : Found) (s : Session) :
    Prop where
  firm : s.Firm found
  valued : ∀ r, host.LeadsTo object names r → ∃ value, s.HasValue r value ∧ s.Firm value
  means : ∀ u, u ∈ s.meanings found ↔
    ∃ r value, host.LeadsTo object names r ∧ s.HasValue r value ∧ u ∈ s.meanings value

namespace Gathers

variable {name : String}

private theorem firm_of_hasValue (h : Gathers host object names found s) (leads : host.LeadsTo object names r) {value : Found}
    (has : s.HasValue r value) : s.Firm value := by
  obtain ⟨other, known, firm⟩ := h.valued r leads
  rwa [has.unique known]

theorem later (h : Gathers host object names found s) (later : Later s t) : Gathers host object names found t where
  firm := h.firm.fixes later.fixes
  valued r leads := by
    obtain ⟨value, has, firm⟩ := h.valued r leads
    exact ⟨value, has.mono later.remembers, firm.fixes later.fixes⟩
  means u := by
    rw [h.firm.meanings later.fixes, h.means]
    refine exists_congr fun r => exists_congr fun value => and_congr_right fun leads => ?_
    obtain ⟨other, has, firm⟩ := h.valued r leads
    constructor
    · rintro ⟨known, mem⟩
      rw [← (h.firm_of_hasValue leads known).meanings later.fixes] at mem
      exact ⟨known.mono later.remembers, mem⟩
    · rintro ⟨known, mem⟩
      obtain rfl := known.unique (has.mono later.remembers)
      rw [firm.meanings later.fixes] at mem
      exact ⟨has, mem⟩

/-- Where names lead nowhere nothing is found. -/
theorem nothing (nowhere : ∀ r, ¬ host.LeadsTo object names r) : Gathers host object names none s where
  firm := .none
  valued r leads := absurd leads (nowhere r)
  means u := by
    simp only [meanings_none, Set.mem_empty_iff_false, false_iff]
    rintro ⟨r, value, leads, -⟩
    exact nowhere r leads

theorem congr {other : Option ObjectId} {others : List String} (h : Gathers host object names found s)
    (same : ∀ r, host.LeadsTo other others r ↔ host.LeadsTo object names r) : Gathers host other others found s where
  firm := h.firm
  valued r leads := h.valued r ((same r).1 leads)
  means u := by simp only [same, h.means]

/-- The object itself is all that no names lead to. -/
theorem here (has : s.HasValue o found) (firm : s.Firm found) : Gathers host (some o) [] found s where
  firm := firm
  valued r leads := by
    rw [Host.leadsTo_here] at leads
    subst leads
    exact ⟨found, has, firm⟩
  means u := by
    simp only [Host.leadsTo_here]
    constructor
    · exact fun mem => ⟨o, found, rfl, has, mem⟩
    · rintro ⟨r, value, rfl, known, mem⟩
      rwa [has.unique known]

/-- Put together, what the alternatives lead to is what the binding leads to. -/
theorem several (several : host.classify o = .multipleMembers) {results : List Found} (firm : s.Firm found)
    (forth : ∀ a ∈ host.alternatives o, ∃ f ∈ results, Gathers host a (name :: names) f s)
    (back : ∀ f ∈ results, ∃ a ∈ host.alternatives o, Gathers host a (name :: names) f s)
    (union : ∀ u, u ∈ s.meanings found ↔ ∃ f ∈ results, u ∈ s.meanings f) :
    Gathers host (some o) (name :: names) found s where
  firm := firm
  valued r leads := by
    obtain ⟨a, mem, leads⟩ := (Host.leadsTo_of_several several).1 leads
    obtain ⟨f, -, gathers⟩ := forth a mem
    exact gathers.valued r leads
  means u := by
    rw [union]
    constructor
    · rintro ⟨f, mem, means⟩
      obtain ⟨a, ma, gathers⟩ := back f mem
      obtain ⟨r, value, leads, has⟩ := (gathers.means u).1 means
      exact ⟨r, value, (Host.leadsTo_of_several several).2 ⟨a, ma, leads⟩, has⟩
    · rintro ⟨r, value, leads, has⟩
      obtain ⟨a, ma, leads⟩ := (Host.leadsTo_of_several several).1 leads
      obtain ⟨f, mem, gathers⟩ := forth a ma
      exact ⟨f, mem, (gathers.means u).2 ⟨r, value, leads, has⟩⟩

end Gathers

/-- One name is followed from a container to its member and from a binding to each alternative. -/
theorem Reaches.fromMemberWithin {P : Session → Prop} (depth : Nat) (clear : host.Clear object names) :
    Reaches host P (Session.fromMemberWithin depth object names) fun found t => Gathers host object names found t := by
  induction depth generalizing object names P with
  | zero =>
    cases object with
    | none => exact .pure fun _ _ => .nothing nofun
    | some o => exact fun s _ _ => .inl ⟨s, rfl⟩
  | succ depth ih =>
    cases object with
    | none => exact .pure fun _ _ => .nothing nofun
    | some o =>
      cases names with
      | nil => exact (Reaches.valueOf clear).mono (fun _ => id) fun _ _ right => .here right.1 right.2
      | cons name rest =>
        have descends (step : host.Contains o) : Reaches host (fun _ => True)
            (Session.fromMemberWithin depth (host.member? o name) rest) (Gathers host (some o) (name :: rest)) :=
          (ih (clear.member step)).mono (fun _ => id) fun _ _ gathers =>
            gathers.congr fun _ => Host.leadsTo_of_contains step
        refine .read fun s fit _ => ?_
        dsimp only
        rw [fit.alike.classify, fit.alike.alternatives, fit.alike.member?]
        split
        · next kind => exact (descends (.inl kind)).mono (fun _ _ => trivial) fun _ _ => id
        · next kind => exact (descends (.inr (.inl kind))).mono (fun _ _ => trivial) fun _ _ => id
        · next kind => exact (descends (.inr (.inr kind))).mono (fun _ _ => trivial) fun _ _ => id
        · next several =>
          refine .bind (mapM (fun _ _ _ _ later gathers => gathers.later later) fun a mem =>
            ih (clear.option several mem)) fun results => ?_
          intro t fit ⟨forth, back⟩
          have firm : ∀ f ∈ results, t.Firm f := fun f mem => by
            obtain ⟨a, -, gathers⟩ := back f mem
            exact gathers.firm
          rcases Reaches.aggregate results t fit firm with ends | ⟨found, q, run, next, later, right, union⟩
          · exact .inl ends
          · refine .inr ⟨found, q, run, next, later, .several several right (fun a mem => ?_) (fun f mem => ?_) union⟩
            · obtain ⟨f, mf, gathers⟩ := forth a mem
              exact ⟨f, mf, gathers.later later⟩
            · obtain ⟨a, ma, gathers⟩ := back f mem
              exact ⟨a, ma, gathers.later later⟩
        · next module type container several =>
          refine .pure fun _ _ => .nothing fun r leads => ?_
          cases leads with
          | member step _ => rcases step with kind | kind | kind <;> contradiction
          | alternative step _ => exact absurd step.1 several

/-- Alternatives nest no deeper than the steps that are taken. -/
theorem fromMember_gathers (fit : Fit host s) (clear : host.Clear object names) :
    ∃ found t, fromMember object names s = .ok found t ∧ Fit host t ∧ Later s t ∧
      Gathers host object names found t := by
  have reaches : Reaches host (fun _ => True) (fromMember object names) fun found t =>
      Gathers host object names found t := .read fun _ _ _ => .fromMemberWithin _ clear
  have ends : EndsOn host (fun _ => True) (fromMember object names) fun _ _ => True := .fromMember clear.settles
  rcases reaches s fit trivial with ⟨t, endless⟩ | found
  · exact absurd endless ((ends s fit.toRunsOn trivial).1 t)
  · exact found

/-- On a host whose objects are what they claim to be, where no ambiguous binding on the way is among its own
alternatives, a path from an object is resolved. Each object that it can lead to has a value. Nothing is found
just when none of these values is anything. What is found stands for what all these values stand for, and a
single value is found as it is. Another path that can lead to the same objects is resolved to what stands for the
same values, and which objects a path can lead to does not depend on the order of alternatives, nor on how often
they are given. -/
theorem path_gathers_alternatives {options : Options} {host : Host} {hostRequests : List Request} {first : Session}
    (made : create options host hostRequests = .ok first) (ops : List Operation) (object : Option ObjectId)
    (names : List String) (clear : (afterAll ops first).host.Clear object names) :
    let s := afterAll ops first
    ∃ found t, fromMember object names s = .ok found t ∧
      (∀ r, s.host.LeadsTo object names r → ∃ value, t.HasValue r value) ∧
      (found = none ↔ ∀ r value, s.host.LeadsTo object names r → t.HasValue r value → value = none) ∧
      (∀ u, u ∈ t.meanings found ↔
        ∃ r value, s.host.LeadsTo object names r ∧ t.HasValue r value ∧ u ∈ t.meanings value) ∧
      (∀ w, t.meanings found = {w} → found = some w) ∧
      (∀ other others, s.host.Clear other others →
        (∀ r, s.host.LeadsTo other others r ↔ s.host.LeadsTo object names r) →
        ∃ again q, fromMember other others t = .ok again q ∧ (again = none ↔ found = none) ∧
          q.meanings again = t.meanings found) ∧
      ∀ g, s.host.Reorders g → ∀ r, g.LeadsTo object names r ↔ s.host.LeadsTo object names r := by
  intro s
  have runs : RunsOn s.host s := ⟨.of_eq rfl, (Turnover.afterAll (celled_create made) ops).celled⟩
  have fit : Fit s.host s := ⟨runs, (Reliable.create made).afterAll ops⟩
  obtain ⟨found, t, run, next, -, gathers⟩ := fromMember_gathers fit clear
  refine ⟨found, t, run, fun r leads => ?_, ?_, gathers.means, fun w => gathers.firm.eq_some,
    fun other others clear same => ?_, fun g reorders r => ⟨reorders.symm.leads, reorders.leads⟩⟩
  · obtain ⟨value, has, -⟩ := gathers.valued r leads
    exact ⟨value, has⟩
  · rw [gathers.firm.eq_none_iff, Set.eq_empty_iff_forall_notMem]
    simp only [gathers.means]
    constructor
    · intro empty r value leads has
      rw [(gathers.firm_of_hasValue leads has).eq_none_iff, Set.eq_empty_iff_forall_notMem]
      exact fun u mem => empty u ⟨r, value, leads, has, mem⟩
    · rintro nothing u ⟨r, value, leads, has, mem⟩
      rw [nothing r value leads has, meanings_none] at mem
      cases mem
  · obtain ⟨again, q, repeated, -, later, gathered⟩ := fromMember_gathers next clear
    have meanings : q.meanings again = t.meanings found := by
      ext u
      rw [gathered.means, ← gathers.firm.meanings later.fixes, ((gathers.later later).congr same).means]
    refine ⟨again, q, repeated, ?_, meanings⟩
    rw [gathered.firm.eq_none_iff, gathers.firm.eq_none_iff, meanings]

/-- A host with a binding whose alternatives are two containers, one of them given twice, and nothing. What one
container has is a number, and what the other has is a binding for this number and another one. -/
def nestedHost : Host where
  objects := #[⟨.primitive (.int 1), .primitive⟩, ⟨.primitive (.int 2), .primitive⟩,
    ⟨.container ⟨[("value", some ⟨0⟩)]⟩, .memberContainer⟩, ⟨.container ⟨[("value", some ⟨5⟩)]⟩, .memberContainer⟩,
    ⟨.multiple [some ⟨2⟩, none, some ⟨3⟩, some ⟨2⟩], .multipleMembers⟩,
    ⟨.multiple [some ⟨1⟩, some ⟨0⟩], .multipleMembers⟩]

def nested : Session := after load (blank {} nestedHost [])

/-- Only the two bindings have alternatives, and nothing leads out of the host. -/
theorem clear_nested : nested.host.Clear (some ⟨4⟩) ["value"] := by
  have grows : nestedHost.Grows nested.host := (Remembers.load (blank {} nestedHost [])).host
  have alike : nestedHost.Alike nested.host := .of_grows grows
  have alternatives : ∀ o p, nested.host.Alternative o p → 4 ≤ o.index ∧ p.index < 4 := by
    rintro o p ⟨several, mem⟩
    rw [alike.classify] at several
    rw [alike.alternatives] at mem
    obtain ⟨_ | _ | _ | _ | _ | _ | i⟩ := o <;> cases several
    · have mem : some p ∈ [some ⟨2⟩, none, some ⟨3⟩, some ⟨2⟩] := mem
      grind
    · have mem : some p ∈ [some ⟨1⟩, some ⟨0⟩] := mem
      grind
  have members : ∀ o p name, nested.host.member? o name = some p → p.index < 6 := by
    intro o p name listed
    rw [alike.member?] at listed
    obtain ⟨_ | _ | _ | _ | _ | _ | i⟩ := o
    any_goals cases listed
    · have listed : (NameMap.lookupPair name [("value", some ⟨0⟩)]).join = some p := listed
      grind [NameMap.lookupPair]
    · have listed : (NameMap.lookupPair name [("value", some ⟨5⟩)]).join = some p := listed
      grind [NameMap.lookupPair]
  have inside : ∀ {object names q}, nested.host.Meets object names q → (∀ o, object = some o → o.index < 6) →
      q.index < 6 := by
    intro object names q meets
    induction meets with
    | here o => exact fun start => start o rfl
    | @alternative _ p _ _ step _ ih =>
      refine fun _ => ih ?_
      rintro _ ⟨⟩
      exact Nat.lt_trans (alternatives _ p step).2 (by decide)
    | member _ _ ih => exact fun _ => ih fun p listed => members _ p _ listed
  refine ⟨fun q meets => ?_, fun q _ circular => ?_⟩
  · have there := inside meets (by rintro o ⟨⟩; decide)
    refine ⟨Nat.lt_of_lt_of_le there grows.size, ?_, ?_⟩
    · rw [alike.classify]
      obtain ⟨_ | _ | _ | _ | _ | _ | i⟩ := q <;> rintro ⟨⟩
    · rw [grows.object q there]
      obtain ⟨_ | _ | _ | _ | _ | _ | i⟩ := q <;> rintro value ⟨⟩ <;> rfl
  · obtain ⟨p, first, -⟩ := Relation.TransGen.head'_iff.1 circular
    obtain ⟨o, -, back⟩ := Relation.TransGen.tail'_iff.1 circular
    exact absurd (alternatives q p first).1 (Nat.not_le_of_lt (alternatives o q back).2)

/-- The path leads from the outer binding to a number and, over the other container, to the inner binding. -/
theorem leadsTo_nested (r : ObjectId) :
    nested.host.LeadsTo (some ⟨4⟩) ["value"] r ↔ r = ⟨0⟩ ∨ r = ⟨5⟩ := by
  have alike : nestedHost.Alike nested.host := .of_grows (Remembers.load (blank {} nestedHost [])).host
  have contains (o : ObjectId) (kind : nestedHost.classify o = .memberContainer) : nested.host.Contains o :=
    .inr (.inr ((alike.classify o).trans kind))
  have first : nested.host.LeadsTo (some ⟨2⟩) ["value"] r ↔ r = ⟨0⟩ := by
    rw [Host.leadsTo_of_contains (contains ⟨2⟩ rfl), alike.member?]
    exact Host.leadsTo_here
  have second : nested.host.LeadsTo (some ⟨3⟩) ["value"] r ↔ r = ⟨5⟩ := by
    rw [Host.leadsTo_of_contains (contains ⟨3⟩ rfl), alike.member?]
    exact Host.leadsTo_here
  have nowhere : ¬ nested.host.LeadsTo none ["value"] r := nofun
  have listed : nestedHost.alternatives ⟨4⟩ = [some ⟨2⟩, none, some ⟨3⟩, some ⟨2⟩] := rfl
  rw [Host.leadsTo_of_several ((alike.classify ⟨4⟩).trans rfl), alike.alternatives, listed]
  simp only [List.mem_cons, List.not_mem_nil, or_false, exists_eq_or_imp, exists_eq_left, first, second, nowhere]
  tauto

/-- What is found stands for what the values of these two stand for. -/
theorem path_gathers_nested : ∃ t number inner,
    fromMember (some ⟨4⟩) ["value"] nested = .ok (some ⟨3⟩) t ∧ t.HasValue ⟨0⟩ number ∧ t.HasValue ⟨5⟩ inner ∧
      t.meanings (some ⟨3⟩) = t.meanings number ∪ t.meanings inner := by
  have made : create {} nestedHost [] = .ok nested := create_unasked _ _
  have finds : yield? (fromMember (some ⟨4⟩) ["value"]) nested = some (some ⟨3⟩) := by decide +kernel
  obtain ⟨found, t, run, valued, -, means, -⟩ := path_gathers_alternatives made [] _ _ clear_nested
  have run : fromMember (some ⟨4⟩) ["value"] nested = .ok found t := run
  have same := (ok_of_yield? finds).symm.trans run
  cases same
  obtain ⟨number, known⟩ := valued ⟨0⟩ ((leadsTo_nested _).2 (.inl rfl))
  obtain ⟨inner, nests⟩ := valued ⟨5⟩ ((leadsTo_nested _).2 (.inr rfl))
  refine ⟨_, number, inner, ok_of_yield? finds, known, nests, ?_⟩
  ext u
  refine (means u).trans ?_
  simp only [afterAll, leadsTo_nested, Set.mem_union]
  constructor
  · rintro ⟨r, value, rfl | rfl, has, mem⟩
    · exact .inl (has.unique known ▸ mem)
    · exact .inr (has.unique nests ▸ mem)
  · rintro (mem | mem)
    · exact ⟨_, number, .inl rfl, known, mem⟩
    · exact ⟨_, inner, .inr rfl, nests, mem⟩

end Session

end Typeflow
