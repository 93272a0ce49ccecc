import Mathlib.Data.List.Infix
import Typeflow.ModuleName
import Typeflow.Proofs.Offers.Paths

/-! The layout of packages and the names that are read off it. A file that lies below packages is named by
the way through them from the first directory that is no package. -/
namespace Typeflow

namespace Text

section Components

variable {name : List Char}

private theorem namesFrom_slash (before current text rest : List Char) :
    namesFrom before current (text ++ '/' :: rest) =
      namesFrom before current text ++ namesFrom ('/' :: (text.reverse ++ before)) [] rest := by
  induction text generalizing before current with
  | nil =>
    simp only [List.nil_append, List.reverse_nil, namesFrom]
    split <;> rfl
  | cons c text ih =>
    by_cases slash : c = '/'
    · subst slash
      simp only [List.cons_append, namesFrom, ih, List.reverse_cons, List.append_assoc, List.nil_append]
      split <;> rfl
    · simp [namesFrom, ih]

private theorem namesFrom_plain (plain : '/' ∉ name) (before current : List Char) :
    namesFrom before current name = namesFrom (name.reverse ++ before) (name.reverse ++ current) [] := by
  induction name generalizing before current with
  | nil => rfl
  | cons c name ih =>
    obtain ⟨other, plain⟩ := not_or.1 fun mem => plain (List.mem_cons.2 mem)
    simp [namesFrom, Ne.symm other, ih plain]

private theorem namesFrom_name (some : name ≠ []) (plain : '/' ∉ name) (before : List Char) :
    namesFrom before [] name = [⟨String.ofList name, String.ofList (before.reverse ++ name)⟩] := by
  rw [namesFrom_plain plain]
  simp [namesFrom, some]

end Components

/-- What a component below the root may be called; the two names for directories are like any other here. -/
def IsName (name : String) : Prop := name ≠ "" ∧ '/' ∉ name.toList

instance (name : String) : Decidable (IsName name) := inferInstanceAs (Decidable (_ ∧ _))

theorem IsName.append {name ending : String} (h : IsName name) (plain : '/' ∉ ending.toList) :
    IsName (name ++ ending) := by
  refine ⟨fun none => h.1 (String.append_eq_empty_iff.1 none).1, fun slash => ?_⟩
  rw [String.toList_append] at slash
  exact (List.mem_append.1 slash).elim h.2 plain

/-- The path that leads from the root through these components. -/
def pathOf (names : List String) : String := "/" ++ "/".intercalate names

variable {names : List String} {name : String}

private theorem pathOf_concat (some : names ≠ []) (name : String) :
    pathOf (names ++ [name]) = pathOf names ++ "/" ++ name := by
  rw [pathOf, String.intercalate_append_of_ne_nil some (List.cons_ne_nil _ _), String.intercalate_singleton]
  simp only [pathOf, String.append_assoc]

/-- The last component of a path follows a slash. -/
theorem toList_pathOf_concat (names : List String) (name : String) :
    ∃ way, (pathOf (names ++ [name])).toList = way ++ '/' :: name.toList ∧
      namesFrom [] [] way = namesFrom [] [] (pathOf names).toList := by
  by_cases some : names = []
  · subst some
    exact ⟨[], by simp [pathOf], rfl⟩
  · exact ⟨(pathOf names).toList, by simp [pathOf_concat some], rfl⟩

private theorem components_pathOf (h : ∀ name ∈ names, IsName name) :
    components (pathOf names) = namesFrom [] [] (pathOf names).toList := by
  rcases names.eq_nil_or_concat' with rfl | ⟨names, name, rfl⟩
  · rfl
  · obtain ⟨filled, plain⟩ := h name (by simp)
    obtain ⟨way, ends, -⟩ := toList_pathOf_concat names name
    have some : name.toList ≠ [] := fun none => filled (String.toList_eq_nil_iff.1 none)
    have inside : endsInSlash (pathOf (names ++ [name])) = false := by
      rw [endsInSlash, chars_eq, ends, List.append_cons, List.getLast?_append_of_ne_nil _ some,
        List.getLast?_eq_getLast_of_ne_nil some, beq_eq_false_iff_ne]
      exact fun slash => plain (Option.some.inj slash ▸ List.getLast_mem some)
    simp [components, inside, chars_eq]

/-- A directory adds one component to the way that leads to it. -/
theorem components_pathOf_concat (h : ∀ part ∈ names ++ [name], IsName part) :
    components (pathOf (names ++ [name])) = components (pathOf names) ++ [⟨name, pathOf (names ++ [name])⟩] := by
  obtain ⟨filled, plain⟩ := h name (by simp)
  obtain ⟨way, ends, same⟩ := toList_pathOf_concat names name
  have some : name.toList ≠ [] := fun none => filled (String.toList_eq_nil_iff.1 none)
  have whole : String.ofList (('/' :: (way.reverse ++ [])).reverse ++ name.toList) = pathOf (names ++ [name]) := by
    apply String.toList_inj.1
    simp [ends]
  rw [components_pathOf h, components_pathOf fun part mem => h part (List.mem_append_left _ mem), ends,
    namesFrom_slash, namesFrom_name some plain, whole, same, String.ofList_toList]

/-- A path tells its components apart. -/
theorem pathOf_inj {others : List String} (h : ∀ part ∈ names, IsName part) (g : ∀ part ∈ others, IsName part)
    (same : pathOf names = pathOf others) : names = others := by
  have read : ∀ {names : List String}, (∀ part ∈ names, IsName part) →
      (components (pathOf names)).map (·.name) = names := by
    intro names h
    induction names using List.reverseRecOn with
    | nil => rfl
    | append_singleton names name ih =>
      rw [components_pathOf_concat h, List.map_append, ih fun part mem => h part (List.mem_append_left _ mem)]
      rfl
  rw [← read h, same, read g]

/-- The last dot is the one before the ending of a source file. -/
theorem stem_source (h : name ≠ "") : stem (name ++ ".py") = name := by
  have some : name.toList ≠ [] := fun none => h (String.toList_eq_nil_iff.1 none)
  obtain ⟨c, rest, reversed⟩ := List.exists_cons_of_ne_nil (List.reverse_ne_nil_iff.2 some)
  have longer : name ++ ".py" ≠ ".." := by
    intro same
    have := congrArg (fun text : String => text.toList.reverse.head?) same
    simp at this
  have cut : (name ++ ".py").toList.reverse.dropWhile (· ≠ '.') = '.' :: c :: rest := by
    rw [String.toList_append, List.reverse_append, reversed]
    rfl
  rw [stem, if_neg longer]
  simp only [cut]
  rw [← reversed, List.reverse_reverse, String.ofList_toList]

end Text

open Text

/-- The file that would mark a directory as a package. -/
def markerIn (dir : List String) : String := pathOf (dir ++ [packageMarker])

/-- The markers of the directories from a root to one below it, the innermost first. The root of all paths
is no package, whatever it holds. -/
def markersAbove (root inner : List String) : List String :=
  ((inner.inits.reverse.map (root ++ ·)).filter (· ≠ [])).map markerIn

/-- From a root directory that is no package, packages lead to a module. -/
structure Layout (isFile : String → Bool) (root inner : List String) (last : String) : Prop where
  names : ∀ name ∈ root ++ inner ++ [last], IsName name
  marked : ∀ dir ∈ inner.inits, dir ≠ [] → isFile (markerIn (root ++ dir)) = true
  unmarked : root ≠ [] → isFile (markerIn root) = false

variable {isFile : String → Bool} {root inner : List String} {last : String}

private theorem markersAbove_concat (root inner : List String) (name : String) :
    markersAbove root (inner ++ [name]) = markerIn (root ++ inner ++ [name]) :: markersAbove root inner := by
  simp [markersAbove, List.inits_append]

namespace Layout

/-- What lies around the innermost package is laid out too. -/
theorem outer {name : String} (h : Layout isFile root (inner ++ [name]) last) : Layout isFile root inner name where
  names part mem := h.names part (by rw [← List.append_assoc]; exact List.mem_append_left _ mem)
  marked dir mem := h.marked dir (by rw [List.inits_append]; exact List.mem_append_left _ mem)
  unmarked := h.unmarked

private theorem innermost {name : String} (h : Layout isFile root (inner ++ [name]) last) :
    isFile (markerIn (root ++ inner ++ [name])) = true := by
  rw [List.append_assoc]
  exact h.marked _ ((List.mem_inits _ _).2 List.prefix_rfl) (by simp)

theorem climbPackages (h : Layout isFile root inner last) (name : String) :
    climbPackages isFile name (components (pathOf (root ++ inner))).reverse =
      ⟨joinDots (inner ++ [name]), markersAbove root inner⟩ := by
  induction inner using List.reverseRecOn generalizing last name with
  | nil =>
    rw [List.append_nil]
    rcases root.eq_nil_or_concat' with rfl | ⟨above, top, rfl⟩
    · rfl
    · have some : above ++ [top] ≠ [] := by simp
      have marker : pathOf (above ++ [top]) ++ "/" ++ packageMarker = markerIn (above ++ [top]) :=
        (pathOf_concat some packageMarker).symm
      have parts : ∀ part ∈ above ++ [top], IsName part := fun part mem =>
        h.names part (by rw [List.append_nil]; exact List.mem_append_left _ mem)
      rw [components_pathOf_concat parts, List.reverse_append, List.reverse_singleton, List.singleton_append,
        Typeflow.climbPackages]
      simp only [marker, h.unmarked some]
      simp [joinDots, markersAbove]
  | append_singleton inner dir ih =>
    have some : root ++ inner ++ [dir] ≠ [] := by simp
    have marker : pathOf (root ++ inner ++ [dir]) ++ "/" ++ packageMarker = markerIn (root ++ inner ++ [dir]) :=
      (pathOf_concat some packageMarker).symm
    have join : joinDots (inner ++ [dir ++ "." ++ name]) = joinDots (inner ++ [dir] ++ [name]) := by
      rcases inner with _ | ⟨first, rest⟩
      · rfl
      · rw [joinDots_concat (by simp), joinDots_concat (by simp), joinDots_concat (by simp)]
        simp only [String.append_assoc]
    rw [← List.append_assoc, components_pathOf_concat h.outer.names, List.reverse_append, List.reverse_singleton,
      List.singleton_append, Typeflow.climbPackages]
    simp only [marker, h.innermost, ih h.outer, join, markersAbove_concat, if_true]

end Layout

private theorem moduleNameOf_pathOf {dirs : List String} {file : String} (h : ∀ part ∈ dirs ++ [file], IsName part) :
    moduleNameOf isFile (pathOf (dirs ++ [file])) =
      if file = packageMarker then
        match (components (pathOf dirs)).reverse with
        | [] => ⟨"", []⟩
        | dir :: outer => climbPackages isFile dir.name outer
      else climbPackages isFile (stem file) (components (pathOf dirs)).reverse := by
  rw [moduleNameOf, components_pathOf_concat h, List.reverse_append, List.reverse_singleton]
  rfl

/-- A source file and the file of a package are both named by the way to them through packages. Each marker on
the way is asked for once, from the inside out, up to that of the directory where the way begins; the root of
all paths is never asked about, and neither is the package's own marker. -/
theorem module_name_inverts_layout (h : Layout isFile root inner last) :
    let named : NamedFile := ⟨joinDots (inner ++ [last]), markersAbove root inner⟩
    (last ≠ "__init__" → moduleNameOf isFile (pathOf (root ++ inner ++ [last ++ ".py"])) = named) ∧
      moduleNameOf isFile (markerIn (root ++ inner ++ [last])) = named ∧
      markerIn (root ++ inner ++ [last]) ∉ named.asked := by
  intro named
  have around : ∀ part ∈ root ++ inner, IsName part := fun part mem => h.names part (List.mem_append_left _ mem)
  have own : IsName last := h.names last (by simp)
  have marker : IsName packageMarker := by decide
  refine ⟨fun other => ?_, ?_, fun asked => ?_⟩
  · have file : last ++ ".py" ≠ packageMarker := fun same => other ((String.append_left_inj ".py").1 same)
    have parts : ∀ part ∈ root ++ inner ++ [last ++ ".py"], IsName part :=
      List.forall_mem_append.2 ⟨around, List.forall_mem_singleton.2 (own.append (by decide))⟩
    rw [moduleNameOf_pathOf parts, if_neg file, stem_source own.1, h.climbPackages]
  · have parts : ∀ part ∈ root ++ inner ++ [last] ++ [packageMarker], IsName part :=
      List.forall_mem_append.2 ⟨h.names, List.forall_mem_singleton.2 marker⟩
    rw [markerIn, moduleNameOf_pathOf parts, if_pos rfl, components_pathOf_concat h.names, List.reverse_append,
      List.reverse_singleton, List.singleton_append]
    exact h.climbPackages last
  · obtain ⟨dir, mem, same⟩ := List.mem_map.1 asked
    obtain ⟨below, prior, rfl⟩ := List.mem_map.1 (List.mem_filter.1 mem).1
    have shorter : below <+: inner := (List.mem_inits _ _).1 (List.mem_reverse.1 prior)
    have parts : ∀ part ∈ root ++ below ++ [packageMarker], IsName part := by
      refine List.forall_mem_append.2 ⟨fun part there => around part ?_, List.forall_mem_singleton.2 marker⟩
      exact (List.mem_append.1 there).elim (List.mem_append_left _) fun there =>
        List.mem_append_right _ (shorter.subset there)
    have equal := pathOf_inj parts (List.forall_mem_append.2 ⟨h.names, List.forall_mem_singleton.2 marker⟩) same
    have lengths := congrArg List.length equal
    have fits := shorter.length_le
    simp only [List.length_append, List.length_singleton] at lengths
    omega

/-- A project below a directory without a marker: a module in a package of a package. -/
theorem module_name_inverts_layout_nested :
    let isFile := fun path => decide (path ∈ ["/proj/a/__init__.py", "/proj/a/b/__init__.py", "/__init__.py"])
    moduleNameOf isFile "/proj/a/b/c.py" =
        ⟨"a.b.c", ["/proj/a/b/__init__.py", "/proj/a/__init__.py", "/proj/__init__.py"]⟩ ∧
      moduleNameOf isFile "/proj/a/b/c/__init__.py" =
        ⟨"a.b.c", ["/proj/a/b/__init__.py", "/proj/a/__init__.py", "/proj/__init__.py"]⟩ := by
  intro isFile
  have layout : Layout isFile ["proj"] ["a", "b"] "c" := by
    refine ⟨?_, ?_, ?_⟩ <;> decide +kernel
  obtain ⟨source, package, -⟩ := module_name_inverts_layout layout
  exact ⟨source (by decide), package⟩

end Typeflow
