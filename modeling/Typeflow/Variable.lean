import Typeflow.Ids
import Typeflow.InStep
import Typeflow.ValueSet

/-! The record of a name: the values assigned to it so far, the places where it is assigned and read,
and the units of code that have to run again when it changes. -/
namespace Typeflow

structure Location where
  entry : Option EntryId
  line : Int
  col : Int
  deriving DecidableEq, Repr, Inhabited

/-- Units in the order in which they were added, and the set of them, which tells whether one is there. -/
structure ReaderList where
  listed : List UnitId
  known : List UnitId
  inStep : InStep id listed known
  deriving DecidableEq, Repr

namespace ReaderList

def empty : ReaderList := ⟨[], [], .nil⟩

instance : Inhabited ReaderList := ⟨empty⟩

/-- Adds a unit that is not there yet. -/
def add? (readers : ReaderList) (u : UnitId) : Option ReaderList :=
  if held : readers.known.contains u = true then none
  else
    have free : id u ∉ readers.known := by simpa using held
    some ⟨readers.listed ++ [u], u :: readers.known,
      readers.inStep.add free (List.perm_append_singleton u readers.listed)⟩

/-- Keeps the units that are alive and takes the others out of the set. -/
def keepAlive (alive : UnitId → Bool) (readers : ReaderList) : ReaderList :=
  let dead := readers.listed.filter (!alive ·)
  ⟨readers.listed.filter alive, dead.foldl (fun known u => known.erase u) readers.known,
    readers.inStep.filter alive []⟩

theorem mem_known {readers : ReaderList} {u : UnitId} : u ∈ readers.known ↔ u ∈ readers.listed := by
  simp [readers.inStep.mem_keys]

theorem nodup_listed (readers : ReaderList) : readers.listed.Nodup := by
  simpa using readers.inStep.distinct

private theorem add?_of_mem {readers : ReaderList} {u : UnitId} (there : u ∈ readers.listed) :
    readers.add? u = none := by
  simp [add?, mem_known, there]

private theorem add?_of_not_mem {readers : ReaderList} {u : UnitId} (free : u ∉ readers.listed) :
    ∃ more, readers.add? u = some more ∧ more.listed = readers.listed ++ [u] := by
  simp [add?, mem_known, free]

end ReaderList

structure Variable where
  /-- The cap of the values; zero is none. -/
  cap : Nat := 0
  types : ValueSet := .empty
  /-- The units that read the name, in the order of their first reading. -/
  dependents : ReaderList := .empty
  /-- The number of readers at which dead ones are dropped. -/
  sweepAt : Nat := 8
  assignments : List Location := []
  references : List Location := []
  deriving Inhabited

namespace Variable

/-- Adds an item at the end unless it is there. -/
def addOnce {α : Type} [DecidableEq α] (item : α) (items : List α) : List α :=
  if item ∈ items then items else items ++ [item]

theorem mem_addOnce {α : Type} [DecidableEq α] {item other : α} {items : List α} :
    other ∈ addOnce item items ↔ other = item ∨ other ∈ items := by
  unfold addOnce
  split
  · next there =>
    constructor
    · exact .inr
    · rintro (rfl | h)
      · exact there
      · exact h
  · simp [or_comm]

def readers (x : Variable) : List UnitId := x.dependents.listed

/-- Drops dead readers. -/
def sweep (alive : UnitId → Bool) (x : Variable) : Variable :=
  let dependents := x.dependents.keepAlive alive
  { x with dependents, sweepAt := max 8 (2 * dependents.listed.length) }

/-- Records a reader once. Dead units are not recorded. -/
def addReader (alive : UnitId → Bool) (reader : UnitId) (x : Variable) : Variable :=
  if !alive reader then x
  else match x.dependents.add? reader with
    | none => x
    | some dependents =>
      let x := { x with dependents }
      if x.sweepAt ≤ x.readers.length then x.sweep alive else x

/-- A unit that is dead or listed changes nothing; another is listed last, and a list that has grown to its limit
is swept. -/
theorem addReader_cases (alive : UnitId → Bool) (reader : UnitId) (x : Variable) :
    (alive reader = false ∨ reader ∈ x.readers) ∧ x.addReader alive reader = x ∨
      alive reader = true ∧ reader ∉ x.readers ∧
        ∃ dependents, dependents.listed = x.readers ++ [reader] ∧
          x.addReader alive reader =
            if x.sweepAt ≤ x.readers.length + 1 then ({ x with dependents } : Variable).sweep alive
            else { x with dependents } := by
  cases live : alive reader with
  | false => exact .inl ⟨.inl rfl, by simp [addReader, live]⟩
  | true =>
    by_cases there : reader ∈ x.readers
    · exact .inl ⟨.inr there, by simp [addReader, live, ReaderList.add?_of_mem there]⟩
    · obtain ⟨dependents, added, listed⟩ := ReaderList.add?_of_not_mem there
      have length : dependents.listed.length = x.readers.length + 1 := by simp [listed, readers]
      refine .inr ⟨rfl, there, dependents, listed, ?_⟩
      simp only [addReader, live, added, Bool.not_true, Bool.false_eq_true, if_false]
      rw [← length]
      rfl

theorem types_addReader (alive : UnitId → Bool) (reader : UnitId) (x : Variable) :
    (x.addReader alive reader).types = x.types := by
  rcases addReader_cases alive reader x with ⟨-, same⟩ | ⟨-, -, _, -, added⟩
  · rw [same]
  · rw [added]
    split <;> rfl

theorem assignments_addReader (alive : UnitId → Bool) (reader : UnitId) (x : Variable) :
    (x.addReader alive reader).assignments = x.assignments := by
  rcases addReader_cases alive reader x with ⟨-, same⟩ | ⟨-, -, _, -, added⟩
  · rw [same]
  · rw [added]
    split <;> rfl

/-- The record with more values, or nothing when they change nothing. -/
def grow? (values : ValueSet) (x : Variable) : Option Variable :=
  let merged := x.types.union values x.cap
  if merged = x.types then none else some { x with types := merged }

theorem grow?_eq_none {values : ValueSet} {x : Variable} :
    x.grow? values = none ↔ x.types.union values x.cap = x.types := by
  simp [grow?]

theorem eq_of_grow? {values : ValueSet} {x y : Variable} (h : x.grow? values = some y) :
    y = { x with types := x.types.union values x.cap } := by
  simp only [grow?] at h
  split at h
  · cases h
  · exact (Option.some.inj h).symm

theorem types_of_grow? {values : ValueSet} {x y : Variable} (h : x.grow? values = some y) :
    y.types = x.types.union values x.cap ∧ y.types ≠ x.types := by
  refine ⟨by rw [eq_of_grow? h], fun same => ?_⟩
  rw [eq_of_grow? h] at same
  rw [grow?_eq_none.2 same] at h
  cases h

theorem readers_of_grow? {values : ValueSet} {x y : Variable} (h : x.grow? values = some y) :
    y.readers = x.readers := by
  rw [eq_of_grow? h]
  rfl

@[simp] theorem mem_readers_sweep {alive : UnitId → Bool} {x : Variable} {u : UnitId} :
    u ∈ (x.sweep alive).readers ↔ u ∈ x.readers ∧ alive u = true :=
  List.mem_filter

def assign (place : Location) (x : Variable) : Variable :=
  { x with assignments := addOnce place x.assignments }

def reference (place : Location) (x : Variable) : Variable :=
  { x with references := addOnce place x.references }

/-- A name counts as bound once it is assigned or has a value. -/
def isBound (x : Variable) : Bool := !x.assignments.isEmpty || !x.types.isEmpty

end Variable

end Typeflow
