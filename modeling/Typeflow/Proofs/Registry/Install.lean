import Typeflow.Proofs.Effect.Clear
import Typeflow.Proofs.Registry.Table

/-! Installing registrations: each goes to the module it is meant for at the moment, and of several for
one place the last one stays. -/
namespace Typeflow.Session

variable {s t q : Session}

/-- The registrations were made or made again, in order, while the names kept their modules: every
place and the entry of every function hold what the last of them for it asks for. -/
structure Installs (s : Session) (rs : List Registration) (t : Session) : Prop where
  same : SameModules s t
  modules : t.modules = s.modules
  refs : t.refs = s.refs
  slots : ∀ m qualified, t.specialization? m qualified =
    held (fun r => s.targetOf? r = some (m, qualified)) rs (s.specialization? m qualified)
  log : ∀ key, t.registered? key = held (fun r => r.key = key) rs (s.registered? key)
  options : t.options = s.options
  hostRequests : t.hostRequests = s.hostRequests
  tabled : Tabled t

namespace Installs

theorem of_aside (h : Aside s t) (tabled : Tabled s) : Installs s [] t where
  same := h.sameModules tabled
  modules := h.modules
  refs := h.refs
  slots := h.replacement
  log := h.registered?
  options := h.options
  hostRequests := h.hostRequests
  tabled := h.tabled tabled

theorem refl (tabled : Tabled s) : Installs s [] s := .of_aside (.refl s) tabled

theorem trans {rs more : List Registration} (h : Installs s rs t) (g : Installs t more q) :
    Installs s (rs ++ more) q where
  same := h.same.trans g.same
  modules := g.modules.trans h.modules
  refs := g.refs.trans h.refs
  slots m qualified := by
    rw [held_append, g.slots, h.slots]
    simp only [h.same.targetOf?]
  log key := by rw [held_append, g.log, h.log]
  options := g.options.trans h.options
  hostRequests := g.hostRequests.trans h.hostRequests
  tabled := g.tabled

/-- What is registered stays when what is installed again is in the log. -/
theorem registered? {rs : List Registration} (h : Installs s rs t)
    (hr : ∀ r ∈ rs, s.registered? r.key = some r.specialization) (key : String × String) :
    t.registered? key = s.registered? key := by
  rw [h.log]
  refine held_eq_before fun r hm hk => ?_
  rw [← hk, hr r hm]

end Installs

private theorem total_specializeModule (m : ValueId) (qualified : String) (spec : Specialization) :
    Total (specializeModule m qualified spec) := by
  refine .read fun s => .bind (.modify _) fun _ => ?_
  split
  · exact .read fun _ => .ite (total_enqueueEntry _) (.pure _)
  · exact .pure _

private theorem total_install (r : Registration) : Total (install r) := by
  refine .read fun s => ?_
  split
  · exact .modify _
  · exact .bind (total_specializeModule _ _ _) fun _ => .bind (.modify _) fun _ => .read fun _ => .modify _

theorem total_register (r : Registration) : Total (register r) :=
  .bind (.modify _) fun _ => total_install r

theorem total_installAll (rs : List Registration) : Total (installAll rs) := .forM total_install rs

/-- A registration that is meant for no module stays where it is. -/
theorem aside_install_of_none {r : Registration} (h : s.targetOf? r = none) :
    Aside s (after (install r) s) := by
  have run : after (install r) s =
      after (writeLog .specializations ("deferred " ++ r.module ++ "." ++ r.name)) s := by
    simp only [install, after_read, h]
  rw [run]
  exact .of_same rfl rfl rfl

/-- All that happens besides the entry in the table of the module. -/
theorem aside_install {r : Registration} {m : ValueId} {qualified : String}
    (h : s.targetOf? r = some (m, qualified)) :
    Aside (s.withReplacement m qualified r.specialization) (after (install r) s) := by
  let replaced := s.withReplacement m qualified r.specialization
  let tell : Analysis Unit := do
    count "specializations_applied" 1
    writeLog .specializations ("applied " ++ qualified ++ " on " ++ ((← get).value m).name)
  have run : after (install r) s = after tell (after (specializeModule m qualified r.specialization) s) := by
    simp only [install, after_read, h]
    exact after_seq (total_specializeModule m qualified r.specialization) s
  have tells : ∀ q, Aside q (after tell q) := fun q => .of_same rfl rfl rfl
  have queues : Aside replaced (after (specializeModule m qualified r.specialization) s) := by
    rcases after_specializeModule m qualified r.specialization s with ⟨-, ends⟩ | ⟨p, -, -, ends⟩ <;> rw [ends]
    · exact .refl replaced
    · exact .of_clearings (Clears.enqueueEntry p.entry replaced (Realm.closed_all _)).1
  rw [run]
  exact queues.trans (tells _)

theorem value_withReplacement (s : Session) (m v : ValueId) (qualified : String) (spec : Specialization) :
    (s.withReplacement m qualified spec).value v =
      if v = m ∧ m.index < s.values.size then
        { s.value m with table := (s.value m).table.insert qualified spec }
      else s.value v := value_setValue s m v _

private theorem sameModules_withReplacement (s : Session) (m : ValueId) (qualified : String)
    (spec : Specialization) : SameModules s (s.withReplacement m qualified spec) := by
  intro name
  have kept : ∀ v, ((s.withReplacement m qualified spec).value v).isModule = (s.value v).isModule := by
    intro v
    rw [value_withReplacement]
    split
    · next same => rw [same.1]; rfl
    · rfl
  refine Option.ext fun v => ?_
  rw [loadedModule?_eq_some, loadedModule?_eq_some]
  simp only [kept]
  rfl

theorem Tabled.withReplacement (h : Tabled s) (m : ValueId) (qualified : String)
    (spec : Specialization) : Tabled (s.withReplacement m qualified spec) where
  cells := h.cells
  placed := h.placed
  modules r v hv := by simpa [Session.withReplacement, setValue] using h.modules r v hv
  objects o v hv := by simpa [Session.withReplacement, setValue] using h.objects o v hv
  filed := ⟨h.filed.ordered, h.filed.own, h.filed.once⟩

/-- Installing what is in the log. -/
theorem installs_install (tabled : Tabled s) {r : Registration}
    (hr : s.registered? r.key = some r.specialization) : Installs s [r] (after (install r) s) := by
  have logged : ∀ key, held (fun r => r.key = key) [r] (s.registered? key) = s.registered? key := by
    refine fun key => held_eq_before fun other ho hk => ?_
    obtain rfl := List.mem_singleton.1 ho
    rw [← hk, hr]
  cases target : s.targetOf? r with
  | none =>
    have aside := aside_install_of_none target
    refine ⟨aside.sameModules tabled, aside.modules, aside.refs, fun m qualified => ?_, fun key => ?_,
      aside.options, aside.hostRequests, aside.tabled tabled⟩
    · rw [aside.replacement]
      refine (held_eq_before fun other ho hk => ?_).symm
      rw [List.mem_singleton.1 ho, target] at hk
      cases hk
    · rw [aside.registered?, logged]
  | some place =>
    obtain ⟨m, qualified⟩ := place
    have aside := aside_install target
    have before := tabled.withReplacement m qualified r.specialization
    have loaded : m.index < s.values.size :=
      index_lt_of_loadedModule? (loaded_of_targetOf? target).choose_spec
    refine ⟨(sameModules_withReplacement s m qualified _).trans (aside.sameModules before),
      aside.modules, aside.refs, fun n other => ?_, fun key => ?_, aside.options, aside.hostRequests,
      aside.tabled before⟩
    · rw [aside.replacement, specialization?, value_withReplacement]
      simp only [held, List.foldl_cons, List.foldl_nil, target, Option.some.injEq, Prod.mk.injEq]
      by_cases same : n = m
      · subst same
        rw [if_pos ⟨rfl, loaded⟩, NameMap.find?_insert]
        simp only [true_and, eq_comm]
        rfl
      · rw [if_neg fun both => same both.1, if_neg fun both => same both.1.symm]
        rfl
    · rw [aside.registered?, logged]
      rfl

private theorem installs_installAll (tabled : Tabled s) {rs : List Registration}
    (hr : ∀ r ∈ rs, s.registered? r.key = some r.specialization) :
    Installs s rs (after (installAll rs) s) := by
  induction rs generalizing s with
  | nil => exact .refl tabled
  | cons r rest ih =>
    have first := installs_install tabled (hr r List.mem_cons_self)
    have run : after (installAll (r :: rest)) s = after (installAll rest) (after (install r) s) :=
      after_seq (total_install r) s
    rw [run]
    refine first.trans (ih first.tabled fun other ho => ?_)
    have still := first.registered? (fun r' hr' => hr r' (List.mem_singleton.1 hr' ▸ List.mem_cons_self))
    rw [still, hr other (List.mem_cons_of_mem _ ho)]

/-- Installing leaves the log as it is. -/
theorem registrations_install (r : Registration) (s : Session) :
    (after (install r) s).registrations = s.registrations := by
  cases target : s.targetOf? r with
  | none => exact (aside_install_of_none target).registrations
  | some place => exact (aside_install target).registrations

theorem registrations_installAll (rs : List Registration) (s : Session) :
    (after (installAll rs) s).registrations = s.registrations := by
  induction rs generalizing s with
  | nil => rfl
  | cons r rest ih =>
    have run : after (installAll (r :: rest)) s = after (installAll rest) (after (install r) s) :=
      after_seq (total_install r) s
    rw [run, ih, registrations_install]

theorem installs_installFor (tabled : Tabled s) (name : String) :
    Installs s (s.registrationsFor name) (after (installFor name) s) :=
  installs_installAll tabled fun _ hr => tabled.filed.registered?_of_mem (registrationsFor_subset hr)

theorem installs_installEvery (tabled : Tabled s) : Installs s s.logged (after installEvery s) :=
  installs_installAll tabled fun _ hr => tabled.filed.registered?_of_mem hr

/-- Registering puts the registration in the log and installs it. -/
theorem installs_register (tabled : Tabled s) (r : Registration) :
    Installs s [r] (after (register r) s) := by
  let put := s.withRegistration r
  have filed : Tabled put :=
    ⟨tabled.cells, tabled.placed, tabled.modules, tabled.objects, tabled.filed.withRegistration r⟩
  have found : put.registered? r.key = some r.specialization := by
    rw [registered?_withRegistration]
    simp only [held, List.foldl_cons, List.foldl_nil, if_true]
  have installed := installs_install filed found
  refine ⟨fun name => installed.same name, installed.modules, installed.refs,
    fun m qualified => installed.slots m qualified, fun key => ?_, installed.options,
    installed.hostRequests, installed.tabled⟩
  change (after (install r) put).registered? key = _
  rw [installed.registered? fun other ho => List.mem_singleton.1 ho ▸ found,
    registered?_withRegistration]

theorem installs_registerAll (tabled : Tabled s) (rs : List Registration) :
    Installs s rs (after (rs.forM register) s) := by
  induction rs generalizing s with
  | nil => exact .refl tabled
  | cons r rest ih =>
    have first := installs_register tabled r
    rw [after_forM_cons total_register]
    exact first.trans (ih first.tabled)

end Typeflow.Session
