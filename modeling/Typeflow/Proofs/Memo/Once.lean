import Typeflow.Proofs.Memo.Calls

/-! Memo tables compute each key once, however the computations look up keys of their own, and a computation
that fails takes nothing with it but its own key. -/
namespace Typeflow

variable {ε κ α : Type} [BEq κ]

/-- Events in the life of a table, each allowed by those before it and each with a table that holds what they
tell. -/
inductive Story : Account κ α → List (Incident κ α × Cache κ α) → Account κ α → Prop
  | nil (a : Account κ α) : Story a [] a
  | cons {a b : Account κ α} {i : Incident κ α} {c : Cache κ α} {events : List (Incident κ α × Cache κ α)}
      (allowed : a.Allows i) (tells : (a.note i).Tells c) (rest : Story (a.note i) events b) :
      Story a ((i, c) :: events) b

/-- What is to hold of all that happens to a memo table. -/
structure MemoLaws (events : List (Incident κ α × Cache κ α)) : Prop where
  /-- At every moment the table holds what has been computed and places for what is being computed, and it has
  counted the computations that have begun. -/
  tells {before after : List (Incident κ α × Cache κ α)} {i : Incident κ α} {c : Cache κ α} :
    events = before ++ (i, c) :: after → (Account.after {} (before ++ [(i, c)])).Tells c
  /-- A key is computed again only when its computation has failed or the table has been cleared. -/
  once {before between after : List (Incident κ α × Cache κ α)} {key again : κ} {c d : Cache κ α} :
    events = before ++ (.began key, c) :: (between ++ (.began again, d) :: after) → (again == key) = true →
      (∃ event ∈ between, event.1 = .cleared) ∨
      ∃ event ∈ between, ∃ failed, event.1 = .failed failed ∧ (key == failed) = true
  /-- A key that is being computed is answered without a value, and nothing is computed for it. -/
  open_answers {before after : List (Incident κ α × Cache κ α)} {key : κ} {c : Cache κ α} :
    events = before ++ (.asked key, c) :: after → (Account.after {} before).isRunning key = true →
      ∃ d rest, after = (.answered key none, d) :: rest
  /-- A lookup of a key for which nothing is held begins to compute it. -/
  begins {before after : List (Incident κ α × Cache κ α)} {key : κ} {c : Cache κ α} :
    events = before ++ (.asked key, c) :: after → (Account.after {} before).held key = none →
      ∃ d rest, after = (.began key, d) :: rest
  /-- A computation that begins yields a value or fails. -/
  ends {before after : List (Incident κ α × Cache κ α)} {key : κ} {c : Cache κ α} :
    events = before ++ (.began key, c) :: after →
      ∃ event ∈ after, (∃ value, event.1 = .yielded key value) ∨ event.1 = .failed key
  /-- What a computation yields is the answer to the lookup that began it. -/
  yields {before after : List (Incident κ α × Cache κ α)} {key : κ} {value : Option α} {c : Cache κ α} :
    events = before ++ (.yielded key value, c) :: after → ∃ d rest, after = (.answered key value, d) :: rest
  /-- What a computation yields answers all later lookups until the table is cleared. -/
  lasts {before between after : List (Incident κ α × Cache κ α)} {key again : κ} {value : Option α}
      {c d : Cache κ α} :
    events = before ++ (.yielded key value, c) :: (between ++ (.asked again, d) :: after) →
    (again == key) = true → (∀ event ∈ between, event.1 ≠ .cleared) →
      ∃ d rest, after = (.answered again value, d) :: rest
  /-- A computation that fails leaves its own key absent and all other keys as they were. -/
  fails {before after : List (Incident κ α × Cache κ α)} {i : Incident κ α} {c d : Cache κ α} {key : κ} :
    events = before ++ (i, c) :: (.failed key, d) :: after →
      ∀ asked, d.find? asked = if asked == key then none else c.find? asked
  /-- The table tells truly what it holds and what it has counted. -/
  counts {before after : List (Incident κ α × Cache κ α)} {i : Incident κ α} {c : Cache κ α} :
    events = before ++ (i, c) :: after →
      (∀ key present, i = .contains key present → present = ((Account.after {} before).held key).isSome) ∧
      (∀ count, i = .size count → count = (Account.after {} before).size) ∧
      (∀ count, i = .misses count → count = (Account.after {} before).begun)

namespace Account

variable {a b : Account κ α} {key : κ} {value : Option α} {phase : Phase α} {rest : List (κ × Phase α)}
  {i : Incident κ α}

theorem held_congr [PartialEquivBEq κ] {other : κ} (same : (key == other) = true) :
    a.held key = a.held other := by
  have running : a.isRunning key = a.isRunning other := by
    rw [isRunning, isRunning]
    exact congrArg (fun p => List.any a.running p) (funext fun _ => BEq.congr_left same)
  rw [held, held, running, Cache.lookup_congr same]

theorem Tidy.new : ({} : Account κ α).Tidy := ⟨.nil, nofun⟩

/-- A key that is being computed is held without a value. -/
theorem Tidy.held_of_isRunning [PartialEquivBEq κ] (h : a.Tidy) (runs : a.isRunning key = true) :
    a.held key = some none := by
  obtain ⟨other, mem, same⟩ := List.any_eq_true.1 runs
  rw [held, Cache.lookup_congr same, h.unfinished other mem, runs]
  rfl

omit [BEq κ] in
private theorem Idle.not_of_top (top : a.calls = (key, phase) :: rest) (waits : phase ≠ .running) : ¬a.Idle :=
  fun idle => waits (idle key phase rest top)

omit [BEq κ] in
private theorem Idle.of_calls (h : a.Idle) (calls : b.calls = a.calls) : b.Idle := by rwa [Idle, calls]

/-- A lookup computes its key or answers it. -/
theorem Allows.of_asked (h : a.Allows i) (top : a.calls = (key, .asked) :: rest) :
    (i = .began key ∧ a.held key = none) ∨ ∃ value, i = .answered key value ∧ a.held key = some value := by
  have busy : ¬a.Idle := Idle.not_of_top top nofun
  cases h <;> simp_all

/-- A computation goes on until it yields a value or fails. -/
theorem Allows.goesOn (h : a.Allows i) (mem : (key, .running) ∈ a.calls) (working : ∀ value, i ≠ .yielded key value)
    (unfailed : i ≠ .failed key) : (key, .running) ∈ (a.note i).calls := by
  cases h with
  | ask other idle => exact List.mem_cons_of_mem _ mem
  | start top free =>
    rw [top] at mem
    exact List.mem_cons_of_mem _ (by simpa [top] using mem)
  | reuse top kept =>
    rw [top] at mem
    simpa [note, top] using mem
  | @finish other rest value top =>
    have differs : key ≠ other := fun same => working value (same ▸ rfl)
    rw [top] at mem
    simpa [note, top, differs] using mem
  | @fail other rest top =>
    have differs : key ≠ other := fun same => unfailed (same ▸ rfl)
    rw [top] at mem
    simpa [note, top, differs] using mem
  | keep top =>
    rw [top] at mem
    simpa [note, top] using mem
  | clear quiet =>
    rw [quiet] at mem
    cases mem
  | contains | size | misses => exact mem

/-- A lookup answers what its computation has yielded. -/
theorem Allows.of_yielded (h : a.Allows i) (top : a.calls = (key, .yielded value) :: rest) :
    i = .answered key value := by
  have busy : ¬a.Idle := Idle.not_of_top top nofun
  cases h <;> simp_all

end Account

namespace Story

variable {a b d : Account κ α} {first second before between after : List (Incident κ α × Cache κ α)}
  {i : Incident κ α} {c c' : Cache κ α} {key again : κ} {value : Option α} {rest : List (κ × Phase α)}

theorem append (h : Story a first b) (more : Story b second d) : Story a (first ++ second) d := by
  induction h with
  | nil => exact more
  | cons allowed tells _ ih => exact .cons allowed tells (ih more)

/-- A story is told up to any of its events, and from there on. -/
theorem split (h : Story a (before ++ (i, c) :: after) b) :
    Story a before (a.after before) ∧ (a.after before).Allows i ∧
      ((a.after before).note i).Tells c ∧ Story ((a.after before).note i) after b := by
  induction before generalizing a with
  | nil =>
    cases h with
    | cons allowed tells rest => exact ⟨.nil a, allowed, tells, rest⟩
  | cons event before ih =>
    cases h with
    | cons allowed tells rest =>
      obtain ⟨told, more⟩ := ih rest
      exact ⟨.cons allowed tells told, more⟩

theorem tidy (h : Story a first b) (tidy : a.Tidy) : b.Tidy := by
  induction h with
  | nil => exact tidy
  | cons _ tells _ ih => exact ih tells.toTidy

/-- A key that is held stays so until its computation fails or the table is cleared. -/
theorem held (h : Story a first b) (there : a.held key ≠ none)
    (stays : ∀ event ∈ first, event.1 ≠ .cleared)
    (goes : ∀ event ∈ first, ∀ other, event.1 = .failed other → (key == other) = false) :
    b.held key ≠ none := by
  induction h with
  | nil => exact there
  | cons allowed _ _ ih =>
    rw [List.forall_mem_cons] at stays goes
    exact ih (allowed.held stays.1 goes.1 there) stays.2 goes.2

/-- What has been computed stays until the table is cleared. -/
theorem finished [EquivBEq κ] (h : Story a first b) (tidy : a.Tidy)
    (there : a.finished.lookup key = some value) (stays : ∀ event ∈ first, event.1 ≠ .cleared) :
    b.finished.lookup key = some value := by
  induction h with
  | nil => exact there
  | cons allowed tells _ ih =>
    rw [List.forall_mem_cons] at stays
    exact ih tells.toTidy (allowed.finished tidy stays.1 there) stays.2

/-- A lookup of a key that is held is answered with what is held. -/
theorem answers (h : Story a first b) (ended : b.calls = []) (top : a.calls = (key, .asked) :: rest)
    (kept : a.held key = some value) : ∃ d more, first = (.answered key value, d) :: more := by
  cases h with
  | nil => rw [ended] at top; cases top
  | @cons _ _ i d events allowed _ _ =>
    obtain ⟨-, free⟩ | ⟨answer, rfl, held⟩ := allowed.of_asked top
    · rw [kept] at free
      cases free
    · rw [kept] at held
      cases held
      exact ⟨d, events, rfl⟩

/-- A lookup of a key for which nothing is held computes it. -/
theorem begins (h : Story a first b) (ended : b.calls = []) (top : a.calls = (key, .asked) :: rest)
    (free : a.held key = none) : ∃ d more, first = (.began key, d) :: more := by
  cases h with
  | nil => rw [ended] at top; cases top
  | @cons _ _ i d events allowed _ _ =>
    obtain ⟨rfl, -⟩ | ⟨answer, -, held⟩ := allowed.of_asked top
    · exact ⟨d, events, rfl⟩
    · rw [free] at held
      cases held

/-- A computation that goes on yields a value or fails in the end. -/
theorem ends (h : Story a first b) (ended : b.calls = []) (goesOn : (key, .running) ∈ a.calls) :
    ∃ event ∈ first, (∃ value, event.1 = .yielded key value) ∨ event.1 = .failed key := by
  induction h with
  | nil =>
    rw [ended] at goesOn
    cases goesOn
  | @cons a b i c events allowed _ _ ih =>
    by_cases yields : ∃ value, i = .yielded key value
    · exact ⟨(i, c), List.mem_cons_self, .inl yields⟩
    by_cases fails : i = .failed key
    · exact ⟨(i, c), List.mem_cons_self, .inr fails⟩
    obtain ⟨event, mem, closes⟩ := ih ended (allowed.goesOn goesOn (not_exists.1 yields) fails)
    exact ⟨event, List.mem_cons_of_mem _ mem, closes⟩

/-- Right after a computation has yielded a value the lookup that began it answers it. -/
theorem yields (h : Story a first b) (ended : b.calls = []) (top : a.calls = (key, .yielded value) :: rest) :
    ∃ d more, first = (.answered key value, d) :: more ∧
      Story { a with calls := rest, finished := (key, value) :: a.finished } more b ∧
      Account.Tells { a with calls := rest, finished := (key, value) :: a.finished } d := by
  cases h with
  | nil => rw [ended] at top; cases top
  | @cons _ _ i d events allowed tells more =>
    obtain rfl := allowed.of_yielded top
    rw [Account.note_answered top] at more tells
    exact ⟨d, events, rfl, more, tells⟩

section Laws

variable [EquivBEq κ]

/-- A key whose computation has begun is computed again only when that has failed or the table has been
cleared. -/
theorem once (h : Story a first b)
    (cut : first = before ++ (.began key, c) :: (between ++ (.began again, c') :: after))
    (same : (again == key) = true) :
    (∃ event ∈ between, event.1 = .cleared) ∨
      ∃ event ∈ between, ∃ failed, event.1 = .failed failed ∧ (key == failed) = true := by
  by_cases clears : ∃ event ∈ between, event.1 = .cleared
  · exact .inl clears
  by_cases fails : ∃ event ∈ between, ∃ failed, event.1 = .failed failed ∧ (key == failed) = true
  · exact .inr fails
  exfalso
  subst cut
  obtain ⟨-, began, -, rest⟩ := h.split
  obtain ⟨meanwhile, beganAgain, -, -⟩ := rest.split
  have there : ((a.after before).note (.began key)).held key ≠ none := by
    cases began with
    | start top free =>
      rw [Ne, Account.held_eq_none_iff, Account.isRunning, Account.running_began top, List.any_cons,
        beq_self_eq_true]
      simp
  have still := meanwhile.held there (fun event mem cleared => clears ⟨event, mem, cleared⟩)
    fun event mem other failed => Bool.eq_false_iff.2 fun same => fails ⟨event, mem, other, failed, same⟩
  rw [← Account.held_congr same] at still
  cases beganAgain with
  | start top free => exact still free

/-- What a computation yields answers all later lookups until the table is cleared. -/
theorem lasts (h : Story a first b) (ended : b.calls = [])
    (cut : first = before ++ (.yielded key value, c) :: (between ++ (.asked again, c') :: after))
    (same : (again == key) = true) (stays : ∀ event ∈ between, event.1 ≠ .cleared) :
    ∃ d rest, after = (.answered again value, d) :: rest := by
  subst cut
  obtain ⟨-, yielded, -, rest⟩ := h.split
  cases yielded with
  | finish _ top =>
    obtain ⟨d, more, next, told, tells⟩ := rest.yields ended (Account.calls_yielded top value)
    cases between with
    | nil => cases next
    | cons event between =>
      rw [List.cons_append, List.cons.injEq] at next
      obtain ⟨rfl, rfl⟩ := next
      obtain ⟨meanwhile, asked, -, rest⟩ := told.split
      have kept : (Account.after _ between).finished.lookup key = some value :=
        meanwhile.finished tells.toTidy (by rw [List.lookup_cons, beq_self_eq_true])
          (List.forall_mem_cons.1 stays).2
      refine rest.answers ended rfl ?_
      rw [Account.held_of_same (Account.running_asked _ again) rfl, Account.held_congr same, Account.held, kept]
      rfl

/-- A computation that fails leaves its own key absent and all other keys as they were. -/
theorem fails (h : Story a first b) (cut : first = before ++ (i, c) :: (.failed key, c') :: after)
    (asked : κ) : c'.find? asked = if asked == key then none else c.find? asked := by
  subst cut
  obtain ⟨-, -, tells, rest⟩ := h.split
  cases rest with
  | cons allowed tells' rest =>
    cases allowed with
    | fail top =>
      have erased := tells.fail top
      rw [tells'.found, ← erased.found, Cache.find?_erase_eq]

/-- All that happens to a table as a story tells it, until no lookup goes on, keeps the laws. -/
theorem laws (h : Story {} first b) (ended : b.calls = []) : MemoLaws first where
  tells cut := by
    subst cut
    rw [Account.after_append_singleton]
    exact h.split.2.2.1
  once := h.once
  open_answers cut runs := by
    subst cut
    obtain ⟨told, -, -, rest⟩ := h.split
    refine rest.answers ended rfl ?_
    rw [Account.held_of_same (Account.running_asked _ _) rfl]
    exact (told.tidy .new).held_of_isRunning runs
  begins cut free := by
    subst cut
    obtain ⟨-, -, -, rest⟩ := h.split
    refine rest.begins ended rfl ?_
    rwa [Account.held_of_same (Account.running_asked _ _) rfl]
  ends cut := by
    subst cut
    obtain ⟨-, -, -, rest⟩ := h.split
    exact rest.ends ended List.mem_cons_self
  yields cut := by
    subst cut
    obtain ⟨-, yielded, -, rest⟩ := h.split
    cases yielded with
    | finish _ top =>
      obtain ⟨d, more, next, -, -⟩ := rest.yields ended (Account.calls_yielded top _)
      exact ⟨d, more, next⟩
  lasts := h.lasts ended
  fails := h.fails
  counts cut := by
    subst cut
    obtain ⟨-, allowed, -, -⟩ := h.split
    refine ⟨?_, ?_, ?_⟩
    · rintro key present rfl
      cases allowed
      rfl
    · rintro count rfl
      cases allowed
      rfl
    · rintro count rfl
      cases allowed
      rfl

end Laws

end Story

/-- A trace that goes on as a story tells, to a table that holds what the story tells. -/
structure Leads (a : Account κ α) (t : MemoTrace κ α) (b : Account κ α) (u : MemoTrace κ α) : Prop where
  tells : b.Tells u.cache
  told : ∃ events, u.events = t.events ++ events ∧ Story a events b

namespace Leads

variable {a b d : Account κ α} {t u v : MemoTrace κ α} {i : Incident κ α} {c : Cache κ α}

theorem refl (tells : a.Tells t.cache) : Leads a t a t := ⟨tells, [], by simp, .nil a⟩

theorem trans (h : Leads a t b u) (more : Leads b u d v) : Leads a t d v := by
  obtain ⟨events, is, told⟩ := h.told
  obtain ⟨events', is', told'⟩ := more.told
  exact ⟨more.tells, events ++ events', by rw [is', is, List.append_assoc], told.append told'⟩

theorem next (h : Leads a t b u) (allowed : b.Allows i) (tells : (b.note i).Tells c) :
    Leads a t (b.note i) (u.extend i c) :=
  h.trans ⟨tells, [(i, c)], rfl, .cons allowed tells (.nil _)⟩

/-- A question is answered. -/
theorem stay (h : Leads a t b u) (allowed : b.Allows i) (same : b.note i = b) :
    Leads a t b (u.extend i u.cache) := by
  have next := h.next (c := u.cache) allowed (by rw [same]; exact h.tells)
  rwa [same] at next

/-- A lookup comes in. -/
theorem ask (h : Leads a t b u) (idle : b.Idle) (key : κ) :
    Leads a t (b.note (.asked key)) (u.extend (.asked key) u.cache) :=
  h.next (.ask key idle) (h.tells.of_same (Account.running_asked b key) rfl rfl)

end Leads

open Account MemoTrace

variable [EquivBEq κ] {a : Account κ α} {t : MemoTrace κ α}

/-- Whatever a task does and however it ends, what happens is a story after which the same lookups go on. -/
theorem MemoTask.leads (task : MemoTask ε κ α) (tells : a.Tells t.cache) (idle : a.Idle) :
    ∃ b, Leads a t b (task.after t) ∧ b.calls = a.calls := by
  induction task generalizing a t with
  | yield | fail => exact ⟨a, .refl tells, rfl⟩
  | contains key next ih =>
    have allowed : a.Allows (.contains key (t.cache.contains key)) := by
      rw [Cache.contains, tells.found]
      exact .contains key idle
    have told := (Leads.refl tells).stay allowed rfl
    obtain ⟨b, more, calls⟩ := ih _ told.tells idle
    exact ⟨b, told.trans more, calls⟩
  | size next ih =>
    have allowed : a.Allows (.size t.cache.size) := by
      rw [tells.size]
      exact .size idle
    have told := (Leads.refl tells).stay allowed rfl
    obtain ⟨b, more, calls⟩ := ih _ told.tells idle
    exact ⟨b, told.trans more, calls⟩
  | misses next ih =>
    have allowed : a.Allows (.misses t.cache.misses) := by
      rw [tells.misses]
      exact .misses idle
    have told := (Leads.refl tells).stay allowed rfl
    obtain ⟨b, more, calls⟩ := ih _ told.tells idle
    exact ⟨b, told.trans more, calls⟩
  | lookup key task next ihTask ihNext =>
    have asked := (Leads.refl tells).ask idle key
    have held : (a.note (.asked key)).held key = a.held key :=
      held_of_same (running_asked a key) rfl
    cases found : t.cache.find? key with
    | some kept =>
      rw [after_lookup_of_held found]
      have kept' : (a.note (.asked key)).held key = some kept := by rw [held, ← tells.found, found]
      have answered := asked.next (.reuse rfl kept') (asked.tells.of_same rfl rfl rfl)
      obtain ⟨b, more, calls⟩ := ihNext (.ok kept) answered.tells idle
      exact ⟨b, answered.trans more, calls⟩
    | none =>
      have free : (a.note (.asked key)).held key = none := by rw [held, ← tells.found, found]
      have began : Leads a t _ (begin t key) := asked.next (.start rfl free) (asked.tells.start rfl free)
      obtain ⟨b, made, running⟩ : ∃ b, Leads _ (begin t key) b (task.after (begin t key)) ∧
          b.calls = (key, .running) :: a.calls := ihTask began.tells (by rintro _ _ _ ⟨⟩; rfl)
      have told := began.trans made
      cases ran : task.run (begin t key) with
      | ok value u =>
        rw [after_lookup_of_ok found ran]
        rw [after_of_ok ran] at told
        have yielded := told.next (.finish value running)
          (told.tells.of_same (running_yielded running value) rfl rfl)
        have top := calls_yielded running value
        have answered := yielded.next (.keep top) (yielded.tells.keep top)
        have calls : ((b.note (.yielded key value)).note (.answered key value)).calls = a.calls := by
          rw [note_answered top]
        obtain ⟨d, more, calls'⟩ := ihNext (.ok value) answered.tells (idle.of_calls calls)
        exact ⟨d, answered.trans more, calls'.trans calls⟩
      | error error u =>
        rw [after_lookup_of_error found ran]
        rw [after_of_error ran] at told
        have failed := told.next (.fail running) (told.tells.fail running)
        have calls : (b.note (.failed key)).calls = a.calls := by rw [note_failed running]
        obtain ⟨d, more, calls'⟩ := ihNext (.error error) failed.tells (idle.of_calls calls)
        exact ⟨d, failed.trans more, calls'.trans calls⟩

/-- A history of a table is a story that no lookup survives. -/
theorem MemoTrace.leads (history : List (MemoUse ε κ α)) (tells : a.Tells t.cache) (quiet : a.calls = []) :
    ∃ b, Leads a t b (history.foldl MemoUse.after t) ∧ b.calls = [] := by
  induction history generalizing a t with
  | nil => exact ⟨a, .refl tells, quiet⟩
  | cons use history ih =>
    have step : ∃ b, Leads a t b (use.after t) ∧ b.calls = [] := by
      cases use with
      | perform task =>
        obtain ⟨b, told, calls⟩ := task.leads tells (by rw [Account.Idle, quiet]; nofun)
        exact ⟨b, told, calls.trans quiet⟩
      | clear => exact ⟨_, (Leads.refl tells).next (.clear quiet) (tells.clear quiet), quiet⟩
    obtain ⟨b, told, quiet⟩ := step
    obtain ⟨d, more, quiet⟩ := ih told.tells quiet
    exact ⟨d, told.trans more, quiet⟩

/-- Whatever tasks use a table, however they nest and fail, and whenever it is cleared between them, each key is
computed once, and what its computation yields is the answer to every lookup from then on. -/
theorem MemoTrace.of_keeps_laws (history : List (MemoUse ε κ α)) : MemoLaws (MemoTrace.of history).events := by
  have new : Account.Tells ({} : Account κ α) ({} : Cache κ α) :=
    { toTidy := .new, found := fun _ => rfl, misses := rfl, size := rfl, distinct := .nil }
  obtain ⟨b, told, ended⟩ := MemoTrace.leads (t := {}) history new rfl
  obtain ⟨events, is, story⟩ := told.told
  rw [MemoTrace.of, is]
  exact story.laws ended

/-- A computation catches the failure of another and meets its own key. -/
theorem nested_failure_keeps_laws :
    let history : List (MemoUse Unit String Int) :=
      [.perform (.lookup "a"
        (.lookup "b" (.fail ()) fun _ => .lookup "a" (.yield (some 1)) fun _ =>
          .lookup "c" (.yield (some 3)) fun _ => .size fun count => .yield (some count))
        fun _ => .lookup "c" (.yield (some 4)) fun _ => .fail ()),
       .perform (.lookup "b" (.yield none) fun _ => .fail ())]
    MemoLaws (MemoTrace.of history).events ∧
      (MemoTrace.of history).cache.entries = [("a", some 2), ("c", some 3), ("b", none)] ∧
      (MemoTrace.of history).cache.misses = 4 :=
  ⟨MemoTrace.of_keeps_laws _, by decide +kernel⟩

end Typeflow
