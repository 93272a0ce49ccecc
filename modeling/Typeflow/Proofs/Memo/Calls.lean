import Typeflow.Proofs.Memo.Account

/-! Computations that use the memo table their own value is kept in, and what happens when they run. -/
namespace Typeflow

/-- A computation that uses a memo table. It looks up keys, each with a computation of its own, and asks about
the table, and goes on with what it learns, be it that a computation has failed. In the end it yields a value,
which may be none, or fails. -/
inductive MemoTask (ε κ α : Type) where
  | yield (value : Option α)
  | fail (error : ε)
  | lookup (key : κ) (task : MemoTask ε κ α) (next : Except ε (Option α) → MemoTask ε κ α)
  | contains (key : κ) (next : Bool → MemoTask ε κ α)
  | size (next : Nat → MemoTask ε κ α)
  | misses (next : Nat → MemoTask ε κ α)

/-- A use of a memo table from outside of all computations. -/
inductive MemoUse (ε κ α : Type) where
  | perform (task : MemoTask ε κ α)
  | clear

/-- A memo table and what has happened to it, each time with the table as it was then. -/
structure MemoTrace (κ α : Type) where
  cache : Cache κ α := {}
  events : List (Incident κ α × Cache κ α) := []

namespace MemoTrace

variable {ε κ α : Type}

def field : CacheField (MemoTrace κ α) κ α where
  read t := t.cache
  write cache t := { t with cache }

/-- The trace with one more incident, at which the table is as given. -/
def extend (t : MemoTrace κ α) (i : Incident κ α) (c : Cache κ α) : MemoTrace κ α :=
  ⟨c, t.events ++ [(i, c)]⟩

def note (i : Incident κ α) : EStateM ε (MemoTrace κ α) Unit :=
  modify fun t => t.extend i t.cache

/-- What an action comes to, be it that it fails. -/
def outcome {β : Type} (m : EStateM ε (MemoTrace κ α) β) : EStateM ε (MemoTrace κ α) (Except ε β) := fun t =>
  match m t with
  | .ok b u => .ok (.ok b) u
  | .error error u => .ok (.error error) u

section Outcome

variable {β γ : Type} {m : EStateM ε (MemoTrace κ α) β} {f : β → EStateM ε (MemoTrace κ α) γ}
  {g : Except ε β → EStateM ε (MemoTrace κ α) γ} {t u : MemoTrace κ α}

theorem bind_of_ok {b : β} (h : m t = .ok b u) : (m >>= f) t = f b u := by
  simp only [bind, EStateM.bind, h]

theorem bind_of_error {error : ε} (h : m t = .error error u) : (m >>= f) t = .error error u := by
  simp only [bind, EStateM.bind, h]

private theorem outcome_of_ok {b : β} (h : m t = .ok b u) : (outcome m >>= g) t = g (.ok b) u :=
  bind_of_ok (by rw [outcome, h])

private theorem outcome_of_error {error : ε} (h : m t = .error error u) : (outcome m >>= g) t = g (.error error) u :=
  bind_of_ok (by rw [outcome, h])

end Outcome

end MemoTrace

open MemoTrace

section Run

variable {ε κ α : Type} [BEq κ]

def MemoTask.run : MemoTask ε κ α → EStateM ε (MemoTrace κ α) (Option α)
  | .yield value => return value
  | .fail error => throw error
  | .lookup key task next => do
    note (.asked key)
    let answer ← outcome (field.recall key do
      note (.began key)
      let value ← task.run
      note (.yielded key value)
      return value)
    match answer with
    | .ok value => note (.answered key value)
    | .error _ => note (.failed key)
    (next answer).run
  | .contains key next => do
    let present := (← get).cache.contains key
    note (.contains key present)
    (next present).run
  | .size next => do
    let count := (← get).cache.size
    note (.size count)
    (next count).run
  | .misses next => do
    let count := (← get).cache.misses
    note (.misses count)
    (next count).run

/-- What a task leaves behind, whether it fails or not. -/
def MemoTask.after (task : MemoTask ε κ α) (t : MemoTrace κ α) : MemoTrace κ α :=
  match task.run t with
  | .ok _ u | .error _ u => u

def MemoUse.after (t : MemoTrace κ α) : MemoUse ε κ α → MemoTrace κ α
  | .perform task => task.after t
  | .clear => t.extend .cleared t.cache.clear

/-- All that happens to a new table. -/
def MemoTrace.of (history : List (MemoUse ε κ α)) : MemoTrace κ α := history.foldl MemoUse.after {}

namespace MemoTask

variable {t u : MemoTrace κ α} {key : κ} {task : MemoTask ε κ α}
  {next : Except ε (Option α) → MemoTask ε κ α} {kept value : Option α} {error : ε}

theorem after_of_ok (ran : task.run t = .ok value u) : task.after t = u := by
  rw [after, ran]

theorem after_of_error (ran : task.run t = .error error u) : task.after t = u := by
  rw [after, ran]

def begin (t : MemoTrace κ α) (key : κ) : MemoTrace κ α :=
  (t.extend (.asked key) t.cache).extend (.began key) (t.cache.reserve key)

def compute (key : κ) (task : MemoTask ε κ α) : EStateM ε (MemoTrace κ α) (Option α) := do
  note (.began key)
  let value ← task.run
  note (.yielded key value)
  return value

/-- A key that is held is answered at once. -/
theorem after_lookup_of_held (held : t.cache.find? key = some kept) :
    (lookup key task next).after t = (next (.ok kept)).after
      ((t.extend (.asked key) t.cache).extend (.answered key kept) t.cache) := by
  have recalled : field.recall key (compute key task) (t.extend (.asked key) t.cache) =
      .ok kept (t.extend (.asked key) t.cache) := CacheField.recall_of_find? held _
  have ran : (lookup key task next).run t = (next (.ok kept)).run
      ((t.extend (.asked key) t.cache).extend (.answered key kept) t.cache) := outcome_of_ok recalled
  rw [after, ran]
  rfl

theorem after_lookup_of_ok (free : t.cache.find? key = none)
    (did : task.run (begin t key) = .ok value u) :
    (lookup key task next).after t = (next (.ok value)).after
      ((u.extend (.yielded key value) u.cache).extend (.answered key value) (u.cache.put key value)) := by
  have computed : compute key task ⟨t.cache.reserve key, t.events ++ [(.asked key, t.cache)]⟩ =
      .ok value (u.extend (.yielded key value) u.cache) := bind_of_ok did
  have recalled : field.recall key (compute key task) (t.extend (.asked key) t.cache) =
      .ok value ⟨u.cache.put key value, (u.extend (.yielded key value) u.cache).events⟩ := by
    simp only [CacheField.recall, field, extend, free] at computed ⊢
    rw [computed]
  have ran : (lookup key task next).run t = (next (.ok value)).run
      ((u.extend (.yielded key value) u.cache).extend (.answered key value) (u.cache.put key value)) :=
    outcome_of_ok recalled
  rw [after, ran]
  rfl

theorem after_lookup_of_error (free : t.cache.find? key = none)
    (did : task.run (begin t key) = .error error u) :
    (lookup key task next).after t = (next (.error error)).after
      (u.extend (.failed key) (u.cache.erase key)) := by
  have computed : compute key task ⟨t.cache.reserve key, t.events ++ [(.asked key, t.cache)]⟩ =
      .error error u := by
    change (task.run >>= fun value => note (.yielded key value) >>= fun _ => pure value) (begin t key) = _
    exact bind_of_error did
  have recalled : field.recall key (compute key task) (t.extend (.asked key) t.cache) =
      .error error ⟨u.cache.erase key, u.events⟩ := by
    simp only [CacheField.recall, field, extend, free] at computed ⊢
    rw [computed]
  have ran : (lookup key task next).run t =
      (next (.error error)).run (u.extend (.failed key) (u.cache.erase key)) := outcome_of_error recalled
  rw [after, ran]
  rfl

end MemoTask

end Run

end Typeflow
