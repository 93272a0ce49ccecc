import Mathlib.Logic.Function.Basic
import Typeflow.Proofs.Slots

/-! What an observer can tell of the values that scopes keep for nodes: which lookups go on, how far each has come,
and what is kept at each moment. From what may happen next follow the laws of all that happens. -/
namespace Typeflow

/-- A node in one of the first scopes. -/
structure NodeKey (n : Nat) where
  scope : Fin n
  node : NodeId
  deriving DecidableEq

/-- What happens while values are made for nodes. -/
inductive NodeIncident (n : Nat) where
  | asked (key : NodeKey n)
  | began (key : NodeKey n)
  | yielded (key : NodeKey n) (values : ValueSet)
  | answered (key : NodeKey n) (values : ValueSet)
  /-- The names of the scope went. -/
  | dropped (scope : Fin n)
  /-- The values of all nodes in the scope went. -/
  | forgot (scope : Fin n)

/-- How far a lookup has come. -/
inductive NodeStage where
  | asked
  | making
  | made (values : ValueSet)

def NodeStage.isMaking : NodeStage → Bool
  | .making => true
  | .asked | .made _ => false

/-- What the incidents so far amount to. -/
structure NodeLedger (n : Nat) where
  kept : NodeKey n → Option ValueSet
  /-- The lookups that go on, the innermost first. -/
  calls : List (NodeKey n × NodeStage) := []

namespace NodeLedger

variable {n : Nat}

def making (l : NodeLedger n) : List (NodeKey n) := (l.calls.filter (·.2.isMaking)).map (·.1)

def note (l : NodeLedger n) : NodeIncident n → NodeLedger n
  | .asked key => { l with calls := (key, .asked) :: l.calls }
  | .began key => ⟨Function.update l.kept key (some .empty), (key, .making) :: l.calls.tail⟩
  | .yielded key values => ⟨Function.update l.kept key (some values), (key, .made values) :: l.calls.tail⟩
  | .answered _ _ => { l with calls := l.calls.tail }
  | .dropped _ => l
  | .forgot scope => { l with kept := fun key => if key.scope = scope then none else l.kept key }

def after (l : NodeLedger n) (events : List (NodeIncident n)) : NodeLedger n := events.foldl note l

/-- No lookup waits for the table, so that a further one may come. -/
def Idle (l : NodeLedger n) : Prop := ∀ key stage rest, l.calls = (key, stage) :: rest → stage = .making

/-- What may happen next. Values are forgotten only when no lookup goes on. -/
inductive Allows (l : NodeLedger n) : NodeIncident n → Prop
  | ask (key : NodeKey n) (idle : l.Idle) : Allows l (.asked key)
  | start {key : NodeKey n} {rest : List (NodeKey n × NodeStage)} (top : l.calls = (key, .asked) :: rest)
      (free : l.kept key = none) : Allows l (.began key)
  | reuse {key : NodeKey n} {rest : List (NodeKey n × NodeStage)} {values : ValueSet}
      (top : l.calls = (key, .asked) :: rest) (found : l.kept key = some values) : Allows l (.answered key values)
  | finish {key : NodeKey n} {rest : List (NodeKey n × NodeStage)} (values : ValueSet)
      (top : l.calls = (key, .making) :: rest) : Allows l (.yielded key values)
  | keep {key : NodeKey n} {rest : List (NodeKey n × NodeStage)} {values : ValueSet}
      (top : l.calls = (key, .made values) :: rest) : Allows l (.answered key values)
  | drop (scope : Fin n) (idle : l.Idle) : Allows l (.dropped scope)
  | forget (scope : Fin n) (quiet : l.calls = []) : Allows l (.forgot scope)

/-- What an incident does to what is kept and to what is being made. -/
def Turns (l m : NodeLedger n) : NodeIncident n → Prop
  | .began key => l.kept key = none ∧ m.kept = Function.update l.kept key (some .empty) ∧ m.making = key :: l.making
  | .yielded key values => m.kept = Function.update l.kept key (some values) ∧ l.making = key :: m.making
  | .forgot scope =>
    (∀ key, m.kept key = if key.scope = scope then none else l.kept key) ∧ l.making = [] ∧ m.making = []
  | .asked _ | .answered _ _ | .dropped _ => m.kept = l.kept ∧ m.making = l.making

variable {l m : NodeLedger n} {i : NodeIncident n} {key : NodeKey n} {values : ValueSet}
  {rest : List (NodeKey n × NodeStage)} {events before after between : List (NodeIncident n)}

theorem Allows.turns (h : l.Allows i) : l.Turns (l.note i) i := by
  cases h with
  | start top free => exact ⟨free, rfl, by simp [making, note, top, NodeStage.isMaking]⟩
  | finish values top => exact ⟨rfl, by simp [making, note, top, NodeStage.isMaking]⟩
  | forget scope quiet => exact ⟨fun _ => rfl, by simp [making, quiet], by simp [making, note, quiet]⟩
  | ask key idle => exact ⟨rfl, by simp [making, note, NodeStage.isMaking]⟩
  | reuse top found => exact ⟨rfl, by simp [making, note, top, NodeStage.isMaking]⟩
  | keep top => exact ⟨rfl, by simp [making, note, top, NodeStage.isMaking]⟩
  | drop scope idle => exact ⟨rfl, rfl⟩

/-- While the innermost lookup waits for the table nothing else may be done. -/
theorem not_idle {stage : NodeStage} (top : l.calls = (key, stage) :: rest) (waits : stage ≠ .making) : ¬l.Idle :=
  fun idle => waits (idle key stage rest top)

private theorem Allows.of_found (h : l.Allows i) (top : l.calls = (key, .asked) :: rest) (found : l.kept key = some values) :
    i = .answered key values := by
  have busy := not_idle top nofun
  cases h <;> simp_all

theorem Allows.of_free (h : l.Allows i) (top : l.calls = (key, .asked) :: rest) (free : l.kept key = none) :
    i = .began key := by
  have busy := not_idle top nofun
  cases h <;> simp_all

theorem Allows.of_made (h : l.Allows i) (top : l.calls = (key, .made values) :: rest) : i = .answered key values := by
  have busy := not_idle top nofun
  cases h <;> simp_all

/-- No value is made twice at a time, and a value that is being made is the empty set until then. -/
structure Tidy (l : NodeLedger n) : Prop where
  apart : l.making.Nodup
  empty : ∀ key ∈ l.making, l.kept key = some .empty

theorem Tidy.of_none (none : l.making = []) : l.Tidy := by
  constructor
  · rw [none]
    exact .nil
  · rw [none]
    nofun

theorem Tidy.start (quiet : l.calls = []) : l.Tidy := .of_none (by simp [making, quiet])

namespace Turns

theorem tidy (h : l.Turns m i) (tidy : l.Tidy) : m.Tidy := by
  obtain ⟨apart, empty⟩ := tidy
  cases i with
  | began key =>
    obtain ⟨free, kept, making⟩ := h
    have fresh : key ∉ l.making := fun mem => by simp [empty key mem] at free
    have nodup : m.making.Nodup := by
      rw [making]
      exact List.nodup_cons.2 ⟨fresh, apart⟩
    refine ⟨nodup, fun other mem => ?_⟩
    rw [kept, Function.update_apply]
    split
    · rfl
    · next differs =>
      rw [making, List.mem_cons] at mem
      exact empty other (mem.resolve_left differs)
  | yielded key values =>
    obtain ⟨kept, making⟩ := h
    rw [making, List.nodup_cons] at apart
    refine ⟨apart.2, fun other mem => ?_⟩
    have differs : other ≠ key := fun same => apart.1 (same ▸ mem)
    rw [kept, Function.update_of_ne differs]
    exact empty other (by rw [making]; exact List.mem_cons_of_mem _ mem)
  | forgot scope =>
    obtain ⟨-, -, none⟩ := h
    exact .of_none none
  | asked | answered | dropped =>
    obtain ⟨kept, making⟩ := h
    exact ⟨by rwa [making], by rwa [making, kept]⟩

/-- A value that has been made stays until its scope forgets it. -/
theorem lasts (h : l.Turns m i) (stays : i ≠ .forgot key.scope) (made : l.kept key = some values ∧ key ∉ l.making) :
    m.kept key = some values ∧ key ∉ m.making := by
  obtain ⟨found, done⟩ := made
  cases i with
  | began other =>
    obtain ⟨free, kept, making⟩ := h
    have differs : key ≠ other := fun same => by simp [← same, found] at free
    rw [kept, making, Function.update_of_ne differs]
    exact ⟨found, List.not_mem_cons_of_ne_of_not_mem differs done⟩
  | yielded other values =>
    obtain ⟨kept, making⟩ := h
    rw [making, List.mem_cons, not_or] at done
    rw [kept, Function.update_of_ne done.1]
    exact ⟨found, done.2⟩
  | forgot scope =>
    obtain ⟨kept, -, making⟩ := h
    have elsewhere : key.scope ≠ scope := fun same => stays (same ▸ rfl)
    rw [kept, if_neg elsewhere, making]
    exact ⟨found, List.not_mem_nil⟩
  | asked | answered | dropped =>
    obtain ⟨kept, making⟩ := h
    rw [kept, making]
    exact ⟨found, done⟩

/-- Something is kept for a node until its scope forgets it. -/
theorem present (h : l.Turns m i) (stays : i ≠ .forgot key.scope) (there : l.kept key ≠ none) : m.kept key ≠ none := by
  cases i with
  | began other =>
    rw [h.2.1, Function.update_apply]
    split
    · exact nofun
    · exact there
  | yielded other values =>
    rw [h.1, Function.update_apply]
    split
    · exact nofun
    · exact there
  | forgot scope =>
    have elsewhere : key.scope ≠ scope := fun same => stays (same ▸ rfl)
    rwa [h.1, if_neg elsewhere]
  | asked | answered | dropped => rwa [h.1]

/-- Nothing is kept for a node until its value begins to be made. -/
theorem absent (h : l.Turns m i) (tidy : l.Tidy) (idle : i ≠ .began key) (free : l.kept key = none) :
    m.kept key = none := by
  cases i with
  | began other =>
    have differs : key ≠ other := fun same => idle (same ▸ rfl)
    rwa [h.2.1, Function.update_of_ne differs]
  | yielded other values =>
    have differs : key ≠ other := by
      rintro rfl
      have found := tidy.empty key (by rw [h.2]; exact List.mem_cons_self)
      rw [found] at free
      cases free
    rwa [h.1, Function.update_of_ne differs]
  | forgot scope =>
    rw [h.1]
    split
    · rfl
    · exact free
  | asked | answered | dropped => rwa [h.1]

/-- A value is being made until it is yielded. -/
theorem stillMaking (h : l.Turns m i) (working : ∀ values, i ≠ .yielded key values) (mem : key ∈ l.making) :
    key ∈ m.making := by
  cases i with
  | began other =>
    rw [h.2.2]
    exact List.mem_cons_of_mem _ mem
  | yielded other values =>
    rw [h.2, List.mem_cons] at mem
    exact mem.resolve_left fun same => working values (same ▸ rfl)
  | forgot scope =>
    rw [h.2.1] at mem
    cases mem
  | asked | answered | dropped => rwa [h.2]

end Turns

/-- Each of the incidents may happen when it does. -/
def Tells : NodeLedger n → List (NodeIncident n) → Prop
  | _, [] => True
  | l, i :: events => l.Allows i ∧ (l.note i).Tells events

theorem tells_append : l.Tells (before ++ after) ↔ l.Tells before ∧ (l.after before).Tells after := by
  induction before generalizing l with
  | nil => simp [Tells, NodeLedger.after]
  | cons i before ih => simp [Tells, NodeLedger.after, ih, and_assoc]

namespace Tells

/-- What holds at first and is kept by all that happens holds in the end. -/
theorem carries {P : NodeLedger n → Prop} (told : l.Tells events) (start : P l)
    (step : ∀ l, ∀ i ∈ events, P l → l.Turns (l.note i) i → P (l.note i)) : P (l.after events) := by
  induction events generalizing l with
  | nil => exact start
  | cons i events ih =>
    obtain ⟨allowed, told⟩ := told
    exact ih told (step l i List.mem_cons_self start allowed.turns) fun l j mem =>
      step l j (List.mem_cons_of_mem _ mem)

theorem tidy (told : l.Tells events) (tidy : l.Tidy) : (l.after events).Tidy :=
  told.carries tidy fun _ _ _ tidy turns => turns.tidy tidy

theorem lasts (told : l.Tells events) (made : l.kept key = some values ∧ key ∉ l.making)
    (stays : .forgot key.scope ∉ events) : (l.after events).kept key = some values :=
  (told.carries (P := fun l => l.kept key = some values ∧ key ∉ l.making) made fun _ _ mem made turns =>
    turns.lasts (fun same => stays (same ▸ mem)) made).1

theorem present (told : l.Tells events) (there : l.kept key ≠ none) (stays : .forgot key.scope ∉ events) :
    (l.after events).kept key ≠ none :=
  told.carries there fun _ _ mem there turns => turns.present (fun same => stays (same ▸ mem)) there

theorem absent (told : l.Tells events) (tidy : l.Tidy) (free : l.kept key = none) (idle : .began key ∉ events) :
    (l.after events).kept key = none :=
  (told.carries (P := fun l => l.Tidy ∧ l.kept key = none) ⟨tidy, free⟩ fun _ _ mem held turns =>
    ⟨turns.tidy held.1, turns.absent held.1 (fun same => idle (same ▸ mem)) held.2⟩).2

theorem stillMaking (told : l.Tells events) (mem : key ∈ l.making)
    (working : ∀ values, .yielded key values ∉ events) : key ∈ (l.after events).making :=
  told.carries mem fun _ _ there mem turns => turns.stillMaking (fun values same => working values (same ▸ there)) mem

section Next

variable (told : l.Tells events) (ended : (l.after events).calls = [])
include told ended

/-- As long as a lookup goes on something happens next. -/
theorem next {call : NodeKey n × NodeStage} (top : l.calls = call :: rest) (only : ∀ j, l.Allows j → j = i) :
    ∃ more, events = i :: more := by
  cases events with
  | nil =>
    have none : l.calls = [] := ended
    rw [top] at none
    cases none
  | cons j more => exact ⟨more, congrArg (· :: more) (only j told.1)⟩

/-- A lookup of a node for which something is kept is answered with it. -/
theorem answers (top : l.calls = (key, .asked) :: rest) (found : l.kept key = some values) :
    ∃ more, events = .answered key values :: more :=
  told.next ended top fun _ allowed => allowed.of_found top found

/-- A lookup of a node for which nothing is kept begins to make its value. -/
theorem begins (top : l.calls = (key, .asked) :: rest) (free : l.kept key = none) :
    ∃ more, events = .began key :: more :=
  told.next ended top fun _ allowed => allowed.of_free top free

/-- A lookup answers what has been made for it. -/
theorem yields (top : l.calls = (key, .made values) :: rest) : ∃ more, events = .answered key values :: more :=
  told.next ended top fun _ allowed => allowed.of_made top

end Next

end Tells

end NodeLedger

/-- How the values of nodes are made and kept, whatever happens; `kept` is what is kept at first. -/
structure NodeLaws {n : Nat} (kept : NodeKey n → Option ValueSet) (events : List (NodeIncident n)) : Prop where
  /-- Until its scope forgets its values, the value of a node begins to be made once. -/
  once {before between after : List (NodeIncident n)} {key : NodeKey n} :
    events = before ++ .began key :: (between ++ .began key :: after) → .forgot key.scope ∈ between
  /-- While the value of a node is being made a lookup of the node is answered with the empty set at once. -/
  reenters {before between after : List (NodeIncident n)} {key : NodeKey n} :
    events = before ++ .began key :: (between ++ .asked key :: after) →
    (∀ values, .yielded key values ∉ between) → ∃ more, after = .answered key .empty :: more
  /-- What is made for a node is the answer to the lookup for which it was made. -/
  yields {before after : List (NodeIncident n)} {key : NodeKey n} {values : ValueSet} :
    events = before ++ .yielded key values :: after → ∃ more, after = .answered key values :: more
  /-- It is the answer to all later lookups, at once, until the scope forgets its values. -/
  lasts {before between after : List (NodeIncident n)} {key : NodeKey n} {values : ValueSet} :
    events = before ++ .yielded key values :: (between ++ .asked key :: after) →
    .forgot key.scope ∉ between → ∃ more, after = .answered key values :: more
  /-- So is what was kept at first. -/
  finds {before after : List (NodeIncident n)} {key : NodeKey n} {values : ValueSet} :
    kept key = some values → events = before ++ .asked key :: after → .forgot key.scope ∉ before →
    ∃ more, after = .answered key values :: more
  /-- A lookup begins to make the value of a node that has none at first and that no lookup has made. -/
  begins {before after : List (NodeIncident n)} {key : NodeKey n} :
    kept key = none → events = before ++ .asked key :: after → .began key ∉ before →
    ∃ more, after = .began key :: more
  /-- Likewise when no lookup has made it since the scope forgot its values. -/
  beginsAgain {before between after : List (NodeIncident n)} {key : NodeKey n} :
    events = before ++ .forgot key.scope :: (between ++ .asked key :: after) → .began key ∉ between →
    ∃ more, after = .began key :: more
  /-- What begins to be made is made. -/
  returns {before after : List (NodeIncident n)} {key : NodeKey n} :
    events = before ++ .began key :: after → ∃ values, .yielded key values ∈ after

namespace NodeLedger.Tells

variable {n : Nat} {l : NodeLedger n} {events before after : List (NodeIncident n)} {i : NodeIncident n}

/-- A story is told up to any of its incidents, and from there on. -/
theorem split (told : l.Tells (before ++ i :: after)) :
    l.Tells before ∧ (l.after before).Allows i ∧ ((l.after before).note i).Tells after :=
  tells_append.1 told

private theorem after_cut : l.after (before ++ i :: after) = ((l.after before).note i).after after := by
  simp [NodeLedger.after]

/-- All that happens from a moment when no lookup goes on to another such moment keeps the laws. -/
theorem laws (told : l.Tells events) (quiet : l.calls = []) (ended : (l.after events).calls = []) :
    NodeLaws l.kept events := by
  have tidy := Tidy.start quiet
  constructor
  case once =>
    rintro before between after key rfl
    obtain ⟨-, began, rest⟩ := told.split
    obtain ⟨meanwhile, again, -⟩ := rest.split
    by_contra stays
    have there : ((l.after before).note (.began key)).kept key ≠ none := by simp [note]
    cases again with
    | start top free => exact meanwhile.present there stays free
  case reenters =>
    rintro before between after key rfl working
    obtain ⟨earlier, began, rest⟩ := told.split
    rw [after_cut, after_cut] at ended
    obtain ⟨meanwhile, asked, told⟩ := rest.split
    have making : key ∈ ((l.after before).note (.began key)).making := by
      rw [began.turns.2.2]
      exact List.mem_cons_self
    have tidy := meanwhile.tidy (began.turns.tidy (earlier.tidy tidy))
    exact told.answers ended rfl (tidy.empty key (meanwhile.stillMaking making working))
  case yields =>
    rintro before after key values rfl
    obtain ⟨-, -, told⟩ := told.split
    rw [after_cut] at ended
    exact told.yields ended rfl
  case lasts =>
    rintro before between after key values rfl stays
    obtain ⟨earlier, yielded, rest⟩ := told.split
    rw [after_cut, after_cut] at ended
    obtain ⟨meanwhile, asked, told⟩ := rest.split
    have apart := (earlier.tidy tidy).apart
    rw [yielded.turns.2, List.nodup_cons] at apart
    have made : ((l.after before).note (.yielded key values)).kept key = some values := by simp [note]
    exact told.answers ended rfl (meanwhile.lasts ⟨made, apart.1⟩ stays)
  case finds =>
    rintro before after key values found rfl stays
    obtain ⟨earlier, asked, told⟩ := told.split
    rw [after_cut] at ended
    have idle : key ∉ l.making := by simp [making, quiet]
    exact told.answers ended rfl (earlier.lasts ⟨found, idle⟩ stays)
  case begins =>
    rintro before after key free rfl idle
    obtain ⟨earlier, asked, told⟩ := told.split
    rw [after_cut] at ended
    exact told.begins ended rfl (earlier.absent tidy free idle)
  case beginsAgain =>
    rintro before between after key rfl idle
    obtain ⟨earlier, forgot, rest⟩ := told.split
    rw [after_cut, after_cut] at ended
    obtain ⟨meanwhile, asked, told⟩ := rest.split
    have free : ((l.after before).note (.forgot key.scope)).kept key = none := by simp [note]
    exact told.begins ended rfl (meanwhile.absent (forgot.turns.tidy (earlier.tidy tidy)) free idle)
  case returns =>
    rintro before after key rfl
    obtain ⟨-, began, told⟩ := told.split
    rw [after_cut] at ended
    by_contra never
    have making : key ∈ ((l.after before).note (.began key)).making := by
      rw [began.turns.2.2]
      exact List.mem_cons_self
    have still := told.stillMaking making fun values mem => never ⟨values, mem⟩
    simp [NodeLedger.making, ended] at still

end NodeLedger.Tells

end Typeflow
