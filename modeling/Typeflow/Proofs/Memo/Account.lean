import Typeflow.Proofs.Effect.Memo

/-! What an observer of a memo table can tell from what happens: which lookups go on, which keys have been
computed, and what the table holds at each moment. -/
namespace Typeflow

/-- How far a lookup has come. -/
inductive Phase (α : Type) where
  | asked
  | running
  | yielded (value : Option α)

def Phase.isBegun {α : Type} : Phase α → Bool
  | .asked => false
  | .running | .yielded _ => true

/-- What happens while a memo table is used. -/
inductive Incident (κ α : Type) where
  | asked (key : κ)
  | began (key : κ)
  | yielded (key : κ) (value : Option α)
  | failed (key : κ)
  | answered (key : κ) (value : Option α)
  | contains (key : κ) (present : Bool)
  | size (count : Nat)
  | misses (count : Nat)
  | cleared

/-- What the incidents so far amount to. -/
structure Account (κ α : Type) where
  /-- The lookups that go on, the innermost first. -/
  calls : List (κ × Phase α) := []
  /-- What the computations that have ended since the table was cleared have yielded. -/
  finished : List (κ × Option α) := []
  /-- How many computations have begun. -/
  begun : Nat := 0

namespace Account

variable {κ α : Type}

def running (a : Account κ α) : List κ := (a.calls.filter (·.2.isBegun)).map (·.1)

def size (a : Account κ α) : Nat := a.finished.length + a.running.length

def note (a : Account κ α) : Incident κ α → Account κ α
  | .asked key => { a with calls := (key, .asked) :: a.calls }
  | .began key => { a with calls := (key, .running) :: a.calls.tail, begun := a.begun + 1 }
  | .yielded key value => { a with calls := (key, .yielded value) :: a.calls.tail }
  | .failed _ => { a with calls := a.calls.tail }
  | .answered key _ =>
    match a.calls with
    | (_, .yielded value) :: rest => { a with calls := rest, finished := (key, value) :: a.finished }
    | _ => { a with calls := a.calls.tail }
  | .cleared => { a with finished := [] }
  | .contains _ _ | .size _ | .misses _ => a

/-- The account after further events, each an incident with the table as it was then. -/
def after (a : Account κ α) (events : List (Incident κ α × Cache κ α)) : Account κ α :=
  events.foldl (fun a event => a.note event.1) a

theorem after_append_singleton (a : Account κ α) (before : List (Incident κ α × Cache κ α))
    (event : Incident κ α × Cache κ α) : a.after (before ++ [event]) = (a.after before).note event.1 := by
  simp [after]

/-- No lookup waits for the table, so that a further one may come. -/
def Idle (a : Account κ α) : Prop := ∀ key phase rest, a.calls = (key, phase) :: rest → phase = .running

variable {a b : Account κ α} {key : κ} {value : Option α} {rest : List (κ × Phase α)}

/-- The keys that run when the innermost computation is over. -/
theorem running_of_top {phase : Phase α} (top : a.calls = (key, phase) :: rest) (begun : phase.isBegun = true) :
    a.running = key :: ({ a with calls := rest } : Account κ α).running := by
  simp [Account.running, top, begun]

theorem running_asked (a : Account κ α) (key : κ) : (a.note (.asked key)).running = a.running := by
  simp [running, note, Phase.isBegun]

theorem running_began (top : a.calls = (key, .asked) :: rest) :
    (a.note (.began key)).running = key :: a.running := by
  simp [running, note, top, Phase.isBegun]

theorem running_yielded (top : a.calls = (key, .running) :: rest) (value : Option α) :
    (a.note (.yielded key value)).running = a.running := by
  simp [running, note, top, Phase.isBegun]

private theorem running_answered (top : a.calls = (key, .asked) :: rest) (value : Option α) :
    (a.note (.answered key value)).running = a.running := by
  simp [running, note, top, Phase.isBegun]

private theorem finished_answered (top : a.calls = (key, .asked) :: rest) (value : Option α) :
    (a.note (.answered key value)).finished = a.finished := by
  simp [note, top]

theorem calls_yielded (top : a.calls = (key, .running) :: rest) (value : Option α) :
    (a.note (.yielded key value)).calls = (key, .yielded value) :: rest := by
  simp [note, top]

theorem note_answered (top : a.calls = (key, .yielded value) :: rest) :
    a.note (.answered key value) = { a with calls := rest, finished := (key, value) :: a.finished } := by
  rw [note, top]

theorem note_failed (top : a.calls = (key, .running) :: rest) :
    a.note (.failed key) = { a with calls := rest } := by
  rw [note, top, List.tail_cons]

variable [BEq κ]

def isRunning (a : Account κ α) (key : κ) : Bool := a.running.any (key == ·)

/-- What a lookup of a key finds: what its computation has yielded, or a place without a value while it is
being computed. -/
def held (a : Account κ α) (key : κ) : Option (Option α) :=
  (a.finished.lookup key).or (if a.isRunning key then some none else none)

/-- What may happen next. -/
inductive Allows (a : Account κ α) : Incident κ α → Prop
  | ask (key : κ) (idle : a.Idle) : Allows a (.asked key)
  | start {key : κ} {rest : List (κ × Phase α)} (top : a.calls = (key, .asked) :: rest)
      (free : a.held key = none) : Allows a (.began key)
  | reuse {key : κ} {rest : List (κ × Phase α)} {value : Option α}
      (top : a.calls = (key, .asked) :: rest) (kept : a.held key = some value) :
      Allows a (.answered key value)
  | finish {key : κ} {rest : List (κ × Phase α)} (value : Option α)
      (top : a.calls = (key, .running) :: rest) : Allows a (.yielded key value)
  | fail {key : κ} {rest : List (κ × Phase α)} (top : a.calls = (key, .running) :: rest) :
      Allows a (.failed key)
  | keep {key : κ} {rest : List (κ × Phase α)} {value : Option α}
      (top : a.calls = (key, .yielded value) :: rest) : Allows a (.answered key value)
  | contains (key : κ) (idle : a.Idle) : Allows a (.contains key (a.held key).isSome)
  | size (idle : a.Idle) : Allows a (.size a.size)
  | misses (idle : a.Idle) : Allows a (.misses a.begun)
  | clear (quiet : a.calls = []) : Allows a .cleared

/-- The keys that are being computed differ from each other and from those that have been. -/
structure Tidy (a : Account κ α) : Prop where
  apart : a.running.Pairwise fun key other => (key == other) = false
  unfinished : ∀ key ∈ a.running, a.finished.lookup key = none

/-- The table holds what the account tells. -/
structure Tells (a : Account κ α) (c : Cache κ α) : Prop extends Tidy a where
  found : ∀ key, c.find? key = a.held key
  misses : c.misses = a.begun
  size : c.size = a.size
  distinct : c.Distinct

variable {c : Cache κ α}

theorem held_eq_none_iff : a.held key = none ↔ a.finished.lookup key = none ∧ a.isRunning key = false := by
  rw [held]
  cases a.finished.lookup key <;> cases a.isRunning key <;> simp

private theorem isRunning_eq_false_iff : a.isRunning key = false ↔ ∀ other ∈ a.running, (key == other) = false := by
  simp [isRunning]

theorem held_of_same (running : b.running = a.running) (finished : b.finished = a.finished) :
    b.held key = a.held key := by
  rw [held, held, isRunning, isRunning, running, finished]

/-- A lookup that begins or ends without a computation changes nothing in the table. -/
theorem Tells.of_same (h : a.Tells c) (running : b.running = a.running)
    (finished : b.finished = a.finished) (begun : b.begun = a.begun) : b.Tells c where
  apart := running ▸ h.apart
  unfinished := by
    rw [running, finished]
    exact h.unfinished
  found key := (h.found key).trans (held_of_same running finished).symm
  misses := h.misses.trans begun.symm
  size := by rw [h.size, Account.size, Account.size, running, finished]
  distinct := h.distinct

/-- Other keys are held as before when a computation is over. -/
theorem held_of_ne {phase : Phase α} (top : a.calls = (key, phase) :: rest) (begun : phase.isBegun = true)
    {asked : κ} (differs : (asked == key) = false) :
    a.held asked = ({ a with calls := rest } : Account κ α).held asked := by
  rw [held, held, isRunning, isRunning, running_of_top top begun, List.any_cons, differs, Bool.false_or]

section Equal

variable [EquivBEq κ]

theorem Tells.start (h : a.Tells c) (top : a.calls = (key, .asked) :: rest) (free : a.held key = none) :
    (a.note (.began key)).Tells (c.reserve key) := by
  have running := running_began top
  obtain ⟨unfinished, idle⟩ := held_eq_none_iff.1 free
  constructor
  case toTidy =>
    constructor
    · rw [running]
      exact List.pairwise_cons.2 ⟨isRunning_eq_false_iff.1 idle, h.apart⟩
    · rw [running]
      exact List.forall_mem_cons.2 ⟨unfinished, h.unfinished⟩
  case found =>
    intro asked
    rw [Cache.find?_reserve_eq, h.found, held, held, isRunning, isRunning, running, List.any_cons]
    show _ = (a.finished.lookup asked).or _
    cases a.finished.lookup asked with
    | some found => rfl
    | none => cases asked == key <;> cases a.running.any (asked == ·) <;> rfl
  case misses => exact congrArg (· + 1) h.misses
  case size =>
    have size := h.size
    rw [Account.size, running, List.length_cons]
    simp only [Cache.size, Account.size, Cache.reserve, List.length_append, List.length_singleton] at size ⊢
    rw [size]
    rfl
  case distinct => exact h.distinct.reserve (by rw [h.found, free])

theorem Tells.present {phase : Phase α} (h : a.Tells c) (top : a.calls = (key, phase) :: rest)
    (begun : phase.isBegun = true) : c.find? key ≠ none := by
  rw [h.found, Ne, held_eq_none_iff, isRunning, running_of_top top begun, List.any_cons, beq_self_eq_true]
  simp

theorem Tells.keep (h : a.Tells c) (top : a.calls = (key, .yielded value) :: rest) :
    (a.note (.answered key value)).Tells (c.put key value) := by
  let left : Account κ α := { a with calls := rest }
  have noted : a.note (.answered key value) = { left with finished := (key, value) :: a.finished } :=
    note_answered top
  have running : a.running = key :: left.running := running_of_top top rfl
  have apart := h.apart
  rw [running, List.pairwise_cons] at apart
  rw [noted]
  constructor
  case toTidy =>
    refine ⟨apart.2, fun other mem => ?_⟩
    have unfinished := h.unfinished other (by rw [running]; exact List.mem_cons_of_mem _ mem)
    rw [List.lookup_cons, BEq.comm, apart.1 other mem]
    exact unfinished
  case found =>
    intro asked
    rw [Cache.find?_put_eq, held, List.lookup_cons]
    cases differs : asked == key with
    | true => rfl
    | false =>
      rw [h.found, held_of_ne top rfl differs]
      rfl
  case misses => exact h.misses
  case size =>
    have size := h.size
    rw [Account.size, running, List.length_cons] at size
    rw [Cache.size_put (h.present top rfl), size, Account.size, List.length_cons]
    show _ = a.finished.length + 1 + left.running.length
    omega
  case distinct => exact h.distinct.put (h.present top rfl) value

theorem Tells.fail (h : a.Tells c) (top : a.calls = (key, .running) :: rest) :
    (a.note (.failed key)).Tells (c.erase key) := by
  let left : Account κ α := { a with calls := rest }
  have noted : a.note (.failed key) = left := note_failed top
  have running : a.running = key :: left.running := running_of_top top rfl
  have apart := h.apart
  rw [running, List.pairwise_cons] at apart
  have unfinished : a.finished.lookup key = none :=
    h.unfinished key (by rw [running]; exact List.mem_cons_self)
  rw [noted]
  constructor
  case toTidy =>
    exact ⟨apart.2, fun other mem => h.unfinished other (by rw [running]; exact List.mem_cons_of_mem _ mem)⟩
  case found =>
    intro asked
    rw [Cache.find?_erase_eq]
    cases same : asked == key with
    | false => exact (h.found asked).trans (held_of_ne top rfl same)
    | true =>
      refine (held_eq_none_iff.2 ⟨?_, isRunning_eq_false_iff.2 fun other mem => ?_⟩).symm
      · exact (Cache.lookup_congr same _).trans unfinished
      · rw [BEq.congr_left same, apart.1 other mem]
  case misses => exact h.misses
  case size =>
    have size := h.size
    have less := Cache.size_erase h.distinct (h.present top rfl)
    rw [Account.size, running, List.length_cons] at size
    show _ = a.finished.length + left.running.length
    omega
  case distinct => exact h.distinct.erase key

end Equal

theorem Tells.clear (h : a.Tells c) (quiet : a.calls = []) : (a.note .cleared).Tells c.clear := by
  have running : (a.note .cleared).running = [] := by simp [Account.running, note, quiet]
  constructor
  case toTidy => exact ⟨by rw [running]; exact .nil, by rw [running]; nofun⟩
  case found =>
    intro asked
    rw [held, isRunning, running]
    rfl
  case misses => exact h.misses
  case size => rw [Account.size, running]; rfl
  case distinct => exact .nil

variable {i : Incident κ α}

/-- A key that is held stays so until its computation fails or the table is cleared. -/
theorem Allows.held (h : a.Allows i) (stays : i ≠ .cleared)
    (goes : ∀ other, i = .failed other → (key == other) = false) (there : a.held key ≠ none) :
    (a.note i).held key ≠ none := by
  cases h with
  | ask other idle =>
    have same : (a.note (.asked other)).held key = a.held key := held_of_same (running_asked a other) rfl
    rwa [same]
  | @start other rest top free =>
    rw [Ne, held_eq_none_iff, isRunning, running_began top, List.any_cons]
    rw [Ne, held_eq_none_iff, isRunning] at there
    exact fun h => there ⟨h.1, (Bool.or_eq_false_iff.1 h.2).2⟩
  | @reuse other rest value top kept =>
    rwa [held_of_same (running_answered top value) (finished_answered top value)]
  | @finish other rest value top =>
    have same : (a.note (.yielded other value)).held key = a.held key :=
      held_of_same (running_yielded top value) rfl
    rwa [same]
  | @fail other rest top =>
    rw [held_of_ne top rfl (goes other rfl)] at there
    rw [note, top]
    exact there
  | @keep other rest value top =>
    rw [note, top, Account.held, List.lookup_cons]
    cases same : key == other with
    | true => simp
    | false =>
      rw [held_of_ne top rfl same] at there
      exact there
  | contains | size | misses => exact there
  | clear => exact absurd rfl stays

/-- What a computation has yielded stays until the table is cleared. -/
theorem Allows.finished [EquivBEq κ] (h : a.Allows i) (tidy : a.Tidy) (stays : i ≠ .cleared)
    (there : a.finished.lookup key = some value) : (a.note i).finished.lookup key = some value := by
  cases h with
  | @reuse other rest value top kept => rwa [finished_answered top value]
  | @keep other rest value top =>
    rw [note, top, List.lookup_cons]
    cases same : key == other with
    | true =>
      have unfinished := tidy.unfinished other (by rw [running_of_top top rfl]; exact List.mem_cons_self)
      rw [Cache.lookup_congr same, unfinished] at there
      cases there
    | false => exact there
  | clear => exact absurd rfl stays
  | ask | start | finish | fail | contains | size | misses => exact there

end Account

end Typeflow
