import Typeflow.Text.Chars

/-! Cutting a text at a separator, with and without the empty pieces. -/
namespace Typeflow.Text

section Cut

variable {α : Type} [DecidableEq α]

/-- The pieces between separators, in order and with the empty ones; `current` is the piece read so far. -/
def segmentsFrom (sep : α) (current : List α) : List α → List (List α)
  | [] => [current]
  | c :: rest => if c = sep then current :: segmentsFrom sep [] rest else segmentsFrom sep (current ++ [c]) rest

/-- The runs of other characters between separators; `current` is the run read so far. -/
def runsFrom (sep : α) (current : List α) : List α → List (List α)
  | [] => if current.isEmpty then [] else [current]
  | c :: rest =>
    if c = sep then
      if current.isEmpty then runsFrom sep [] rest else current :: runsFrom sep [] rest
    else runsFrom sep (current ++ [c]) rest

end Cut

/-- The segments of a dotted name, empty ones included. -/
def dotted (name : String) : List String := (segmentsFrom '.' [] (chars name)).map String.ofList

/-- The items of a separated list; empty items are dropped. -/
def items (sep : Char) (text : String) : List String :=
  (runsFrom sep [] (chars text)).map String.ofList

/-- Joins segments with dots. -/
def joinDots (segments : List String) : String := ".".intercalate segments

/-- The text before and after the last dot. -/
def splitLastDot (name : List Char) : Option (List Char × List Char) :=
  match name with
  | [] => none
  | c :: rest =>
    match splitLastDot rest with
    | some (before, after) => some (c :: before, after)
    | none => if c = '.' then some ([], rest) else none

/-- The text before and after the last dot, if there is one. -/
def lastDot (name : String) : Option (String × String) :=
  (splitLastDot (chars name)).map fun halves => (String.ofList halves.1, String.ofList halves.2)

/-- What follows the given beginning. -/
def restAfter : List Char → List Char → Option (List Char)
  | [], text => some text
  | _ :: _, [] => none
  | c :: start, d :: text => if c = d then restAfter start text else none

/-- The rest of a text that begins with `start`. -/
def after? (start text : String) : Option String :=
  (restAfter (chars start) (chars text)).map String.ofList

def hasDot (text : String) : Bool := (chars text).contains '.'

/-- What follows `parent.` in a name when it has no dot of its own; it may be empty. -/
def lastPartBelow? (parent name : String) : Option String :=
  (after? (parent ++ ".") name).filter fun part => !hasDot part

/-- The name of a direct child of `parent`. -/
def childName? (parent name : String) : Option String :=
  (lastPartBelow? parent name).filter fun part => !part.isEmpty

end Typeflow.Text
