import Typeflow.Text.Path

/-! The dotted name of a module, read off the place of its file among packages. -/
namespace Typeflow

open Text

/-- The file that marks a directory as a package. -/
def packageMarker : String := "__init__.py"

/-- A name found for a file, with the marker files that were asked for, in order. -/
structure NamedFile where
  name : String
  asked : List String
  deriving DecidableEq, Repr

/-- Climbs from the innermost directory outwards for as long as each one is marked as a package. -/
def climbPackages (isFile : String → Bool) (name : String) : List Component → NamedFile
  | [] => ⟨name, []⟩
  | dir :: outer =>
    let marker := dir.upTo ++ "/" ++ packageMarker
    if isFile marker then
      let above := climbPackages isFile (dir.name ++ "." ++ name) outer
      ⟨above.name, marker :: above.asked⟩
    else ⟨name, [marker]⟩

/-- A package file is named after its directory, any other file after its stem. -/
def moduleNameOf (isFile : String → Bool) (path : String) : NamedFile :=
  match (components path).reverse with
  | [] => ⟨"", []⟩
  | file :: dirs =>
    if file.name = packageMarker then
      match dirs with
      | [] => ⟨"", []⟩
      | dir :: outer => climbPackages isFile dir.name outer
    else climbPackages isFile (stem file.name) dirs

end Typeflow
