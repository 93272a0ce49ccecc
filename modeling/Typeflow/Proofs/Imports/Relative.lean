import Mathlib.Algebra.GroupWithZero.Nat
import Typeflow.Proofs.History
import Typeflow.Proofs.Offers.Paths

/-! Relative imports. Each level beyond the first climbs one package, and the first leaves the module unless it
is a package itself. Where nothing is left to climb the name is taken as it stands. -/
namespace Typeflow

namespace Text

private theorem splitLastDot_plain {name : List Char} (plain : '.' ∉ name) : splitLastDot name = none := by
  induction name with
  | nil => rfl
  | cons c rest ih =>
    obtain ⟨other, plain⟩ := not_or.1 fun mem => plain (List.mem_cons.2 mem)
    rw [splitLastDot, ih plain]
    exact if_neg (Ne.symm other)

private theorem splitLastDot_append (before : List Char) {last : List Char} (plain : '.' ∉ last) :
    splitLastDot (before ++ '.' :: last) = some (before, last) := by
  induction before with
  | nil =>
    rw [List.nil_append, splitLastDot, splitLastDot_plain plain]
    rfl
  | cons c rest ih => rw [List.cons_append, splitLastDot, ih]

private theorem length_joinDots (names : List String) :
    (joinDots names).length = (names.map fun name => name.length + 1).sum - 1 := by
  induction names with
  | nil => rfl
  | cons first rest ih =>
    cases rest with
    | nil => simp [joinDots]
    | cons second rest =>
      rw [joinDots, String.intercalate_cons_cons, String.length_append, String.length_append, ← joinDots, ih]
      simp only [List.map_cons, List.sum_cons]
      have : ".".length = 1 := rfl
      omega

end Text

namespace Session

open Text

variable {path : List String}

/-- The package around a module. -/
theorem parentName_joinDots (parts : ∀ part ∈ path, IsPart part) :
    parentName (joinDots path) = joinDots path.dropLast := by
  rcases path.eq_nil_or_concat' with rfl | ⟨above, last, rfl⟩
  · rfl
  · have plain : '.' ∉ last.toList := (parts last (by simp)).2
    rw [List.dropLast_concat, parentName, lastDot, chars_eq]
    by_cases some : above = []
    · subst some
      simp [joinDots, splitLastDot_plain plain]
    · have split : (joinDots (above ++ [last])).toList = (joinDots above).toList ++ '.' :: last.toList := by
        simp [joinDots_concat some]
      rw [split, splitLastDot_append _ plain]
      simp

private theorem parentNames_joinDots (n : Nat) (parts : ∀ part ∈ path, IsPart part) :
    parentNames n (joinDots path) = joinDots (path.take (path.length - n)) := by
  induction n generalizing path with
  | zero => rw [parentNames, Nat.sub_zero, List.take_length]
  | succ n ih =>
    have shorter : (path.dropLast).take (path.dropLast.length - n) = path.take (path.length - (n + 1)) := by
      rw [List.dropLast_eq_take, List.take_take, List.length_take]
      congr 1
      omega
    rw [parentNames, parentName_joinDots parts, ih fun part mem => parts part (List.dropLast_subset path mem), shorter]

/-- How many names a relative import of a level leaves off the name of its module. -/
def climbOf (entry : Entry) (level : Int) : Nat := if isPackage entry then (level - 1).toNat else level.toNat

/-- The name that is left after a climb, with the tail below it. -/
def nameAbove (path : List String) (climb : Nat) (tail : String) : String :=
  joinDots (path.take (path.length - climb) ++ if tail = "" then [] else [tail])

private theorem joinNames_joinDots (parts : ∀ part ∈ path, IsPart part) (tail : String) :
    joinNames (joinDots path) tail = joinDots (path ++ if tail = "" then [] else [tail]) := by
  by_cases empty : tail = ""
  · simp [joinNames, empty]
  · rw [joinNames, if_neg empty, if_neg (by simpa using empty)]
    rcases path with _ | ⟨first, rest⟩
    · simp [joinDots]
    · have filled : joinDots (first :: rest) ≠ "" := by
        intro none
        have size := congrArg String.length none
        have first_ : first.length ≠ 0 := fun zero => (parts first (by simp)).1 (by simpa using zero)
        rw [length_joinDots, List.map_cons, List.sum_cons] at size
        have : "".length = 0 := rfl
        omega
      rw [if_neg (by simpa using filled), joinDots_concat (by simp)]

/-- Climbs that end within the name of a module lead to different names. -/
theorem nameAbove_ne (parts : ∀ part ∈ path, IsPart part) {climb further : Nat} (more : climb < further)
    (within : further ≤ path.length) (tail : String) : nameAbove path climb tail ≠ nameAbove path further tail := by
  obtain ⟨above, below, rfl, size⟩ : ∃ above below, path = above ++ below ∧ below.length = further :=
    ⟨_, _, (List.take_append_drop (path.length - further) path).symm, by rw [List.length_drop]; omega⟩
  obtain ⟨near, far, rfl, beyond⟩ : ∃ near far, below = near ++ far ∧ far.length = climb :=
    ⟨_, _, (List.take_append_drop (below.length - climb) below).symm, by rw [List.length_drop]; omega⟩
  obtain ⟨first, rest, rfl⟩ := List.exists_cons_of_length_pos (l := near) (by rw [List.length_append] at size; omega)
  have left : (above ++ (first :: rest ++ far)).take ((above ++ (first :: rest ++ far)).length - climb) =
      above ++ first :: rest := by
    rw [← List.append_assoc, List.length_append, beyond, Nat.add_sub_cancel, List.take_left]
  have less : (above ++ (first :: rest ++ far)).take ((above ++ (first :: rest ++ far)).length - further) = above := by
    rw [List.length_append, size, Nat.add_sub_cancel, List.take_left]
  have filled : first.length ≠ 0 := fun zero => (parts first (by simp)).1 (by simpa using zero)
  intro same
  have lengths := congrArg String.length same
  rw [nameAbove, nameAbove, left, less, length_joinDots, length_joinDots] at lengths
  simp only [List.map_append, List.map_cons, List.sum_append, List.sum_cons] at lengths
  omega

variable {s : Session} {u : UnitId} {e : EntryId}

private theorem relativeBase_eq (own : (s.unit u).entry = some e) (named : (s.entry e).name = joinDots path)
    (parts : ∀ part ∈ path, IsPart part) {level : Int} (relative : 0 < level) (tail : String) :
    s.relativeBase u tail level = nameAbove path (climbOf (s.entry e) level) tail := by
  have rest : ∀ n, ∀ part ∈ path.take n, IsPart part := fun n part mem => parts part (List.mem_of_mem_take mem)
  have climbs : ∀ n, joinNames (parentNames n (joinDots path)) tail = nameAbove path n tail := fun n => by
    rw [parentNames_joinDots n parts, joinNames_joinDots (rest _), nameAbove]
  simp only [relativeBase, own, named, climbOf]
  split
  · exact climbs _
  · obtain ⟨n, rfl⟩ : ∃ n : Nat, level = n + 1 := ⟨(level - 1).toNat, by omega⟩
    have climb : (n + 1 : Int).toNat = (n + 1 - 1 : Int).toNat + 1 := by omega
    rw [climb]
    exact climbs ((n + 1 - 1 : Int).toNat + 1)

/-- A relative import does what the import of its base does. -/
theorem walk_relative {level : Int} (relative : 0 < level) (mark : Mark) (tail : String) (names : List Alias) :
    walk u (.importFrom mark tail level names) s =
      walk u (.importFrom mark (s.relativeBase u tail level) 0 names) s := by
  rw [walk, walk, walkImportFrom, walkImportFrom, read_run, read_run, if_pos relative, if_neg (Int.lt_irrefl 0)]

/-- A relative import in a module climbs as many packages as its level says, and does what the import of the name
that is left with the tail below it does; further climbs lead to other names. A climb out of the outermost package
leaves the tail alone, and the statement does what the import of the tail does. -/
theorem relative_import_climbs (own : (s.unit u).entry = some e) (named : (s.entry e).name = joinDots path)
    (parts : ∀ part ∈ path, IsPart part) (mark : Mark) (tail : String) (names : List Alias) :
    let climb := climbOf (s.entry e)
    (∀ level, 0 < level → climb level ≤ path.length →
      s.relativeBase u tail level = nameAbove path (climb level) tail ∧
      walk u (.importFrom mark tail level names) s =
        walk u (.importFrom mark (nameAbove path (climb level) tail) 0 names) s ∧
      ∀ further, level < further → climb further ≤ path.length →
        s.relativeBase u tail further ≠ s.relativeBase u tail level) ∧
    ∀ level, 0 < level → path.length < climb level →
      s.relativeBase u tail level = tail ∧
      walk u (.importFrom mark tail level names) s = walk u (.importFrom mark tail 0 names) s := by
  intro climb
  have base : ∀ {level : Int}, 0 < level → s.relativeBase u tail level = nameAbove path (climb level) tail :=
    fun relative => relativeBase_eq own named parts relative tail
  refine ⟨fun level relative within => ⟨base relative, ?_, fun further deeper there => ?_⟩,
    fun level relative above => ?_⟩
  · rw [walk_relative relative, base relative]
  · have more : climb level < climb further := by
      simp only [climb, climbOf]
      split <;> omega
    rw [base relative, base (Int.lt_trans relative deeper)]
    exact (nameAbove_ne parts more there tail).symm
  · have alone : s.relativeBase u tail level = tail := by
      rw [base relative, nameAbove, Nat.sub_eq_zero_of_le (Nat.le_of_lt above), List.take_zero, List.nil_append]
      split
      · next empty => rw [empty]; rfl
      · exact String.intercalate_singleton
    exact ⟨alone, by rw [walk_relative relative, alone]⟩

/-- A module in a package and one beside the package. -/
def importingAbove : List Operation :=
  [.addModule "a.m" "/a/m.py", .addModule "n" "/n.py",
    .replaceTree ⟨0⟩ (some ⟨{}, [.importFrom {} "" 3 [⟨"n", ""⟩]]⟩), .analyzeEntry ⟨0⟩ .never]

def importedAbove : Session := afterAll importingAbove (after load (blank {} {} []))

/-- From a module in a package, one level reaches the package and two the outside. -/
theorem relative_import_climbs_out : (importedAbove.unit ⟨0⟩).entry = some ⟨0⟩ ∧
    importedAbove.relativeBase ⟨0⟩ "b" 1 = "a.b" ∧ importedAbove.relativeBase ⟨0⟩ "b" 2 = "b" ∧
    importedAbove.relativeBase ⟨0⟩ "b" 3 = "b" := by
  obtain ⟨own, named, one, two, three⟩ : (importedAbove.unit ⟨0⟩).entry = some ⟨0⟩ ∧
      (importedAbove.entry ⟨0⟩).name = joinDots ["a", "m"] ∧ climbOf (importedAbove.entry ⟨0⟩) 1 = 1 ∧
      climbOf (importedAbove.entry ⟨0⟩) 2 = 2 ∧ climbOf (importedAbove.entry ⟨0⟩) 3 = 3 := by
    decide +kernel
  obtain ⟨inside, outside⟩ := relative_import_climbs own named (by decide +kernel) {} "b" []
  refine ⟨own, ?_, ?_, (outside 3 (by decide) (by simp [three])).1⟩
  · rw [(inside 1 (by decide) (by simp [one])).1, one]
    rfl
  · rw [(inside 2 (by decide) (by simp [two])).1, two]
    rfl

/-- Three levels are one more than there are names in that of the module, yet the import resolves the module
that is outside the package. -/
theorem import_above_root_resolves : (importedAbove.entry ⟨0⟩).name = joinDots ["a", "m"] ∧
    climbOf (importedAbove.entry ⟨0⟩) 3 = 3 ∧
    (importedAbove.findName? (importedAbove.moduleScopeOf ⟨0⟩) "n").map
      (fun x => (importedAbove.types x).items) = some [(importedAbove.entry ⟨1⟩).module] := by
  decide +kernel

end Session

end Typeflow
