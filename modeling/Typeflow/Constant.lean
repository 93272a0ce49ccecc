import Typeflow.Text.Significant
import Typeflow.TypeId

/-! Values that a program writes out literally. -/
namespace Typeflow

inductive Constant where
  | none
  | bool (value : Bool)
  | int (value : Int)
  | long (digits : String)
  | float (value : Double)
  | complex (re im : Double)
  | str (text : String)
  | bytes (text : String)
  | ellipsis
  deriving DecidableEq, Repr, Inhabited

namespace Constant

/-- Whether two constants are the same value. Constants of different kinds never are, and numbers
compare as numbers. -/
def same : Constant → Constant → Bool
  | .none, .none => true
  | .bool a, .bool b => a == b
  | .int a, .int b => a == b
  | .long a, .long b => a == b
  | .float a, .float b => a.sameNumber b
  | .complex a b, .complex c d => a.sameNumber c && b.sameNumber d
  | .str a, .str b => a == b
  | .bytes a, .bytes b => a == b
  | .ellipsis, .ellipsis => true
  | _, _ => false

instance : BEq Constant := ⟨same⟩

/-- Constants that are the same value may be taken for each other, but a not-a-number is not the same as
itself. -/
instance : PartialEquivBEq Constant where
  symm {a b} h := by
    change same a b = true at h
    change same b a = true
    cases a <;> cases b <;> simp only [same, Bool.and_eq_true, beq_iff_eq, Bool.false_eq_true] at h ⊢
    case float.float => exact Double.sameNumber_comm h
    case complex.complex => exact ⟨Double.sameNumber_comm h.1, Double.sameNumber_comm h.2⟩
    all_goals exact h.symm
  trans {a b c} h g := by
    change same a b = true at h
    change same b c = true at g
    change same a c = true
    cases a <;> cases b <;> simp only [same, Bool.and_eq_true, beq_iff_eq, Bool.false_eq_true] at h
    all_goals cases c <;> simp only [same, Bool.and_eq_true, beq_iff_eq, Bool.false_eq_true] at g ⊢
    case float.float.float => exact Double.sameNumber_trans h g
    case complex.complex.complex =>
      exact ⟨Double.sameNumber_trans h.1 g.1, Double.sameNumber_trans h.2 g.2⟩
    all_goals exact h.trans g

/-- Agrees on constants that are the same value. -/
def hashKey : Constant → UInt64
  | .none => 0
  | .bool a => mixHash 1 (hash a)
  | .int a => mixHash 2 (hash a)
  | .long a => mixHash 3 (hash a)
  | .float a => mixHash 4 a.hashKey
  | .complex a b => mixHash 5 (mixHash a.hashKey b.hashKey)
  | .str a => mixHash 6 (hash a)
  | .bytes a => mixHash 7 (hash a)
  | .ellipsis => 8

theorem hashKey_eq {a b : Constant} (h : same a b = true) : hashKey a = hashKey b := by
  cases a <;> cases b <;> simp [same] at h
  case none.none | ellipsis.ellipsis => rfl
  case float.float => simp [hashKey, Double.hashKey_eq h]
  case complex.complex => simp [hashKey, Double.hashKey_eq h.1, Double.hashKey_eq h.2]
  all_goals subst h; rfl

/-- The type of a constant. Text has its own type when text and byte strings are told apart. -/
def typeId (unicodeText : Bool) : Constant → TypeId
  | .none => .noneType
  | .bool _ => .bool
  | .int _ => .int
  | .long _ => .long
  | .float _ => .float
  | .complex _ _ => .complex
  | .str _ => if unicodeText then .unicode else .str
  | .bytes _ => .bytes
  | .ellipsis => .ellipsis

/-- The text of a string or byte string. -/
def text? : Constant → Option String
  | .str text | .bytes text => some text
  | _ => Option.none

def describe : Constant → String
  | .none => "None"
  | .bool value => if value then "True" else "False"
  | .int value => toString value
  | .long digits => digits ++ "L"
  | .float value => Text.sixDigits value
  | .complex re im => "(" ++ Text.sixDigits re ++ "+" ++ Text.sixDigits im ++ "j)"
  | .str text => "'" ++ text ++ "'"
  | .bytes text => "b'" ++ text ++ "'"
  | .ellipsis => "Ellipsis"

end Constant

end Typeflow
