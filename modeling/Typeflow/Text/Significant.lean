import Typeflow.Double

/-! Numbers written with at most six significant digits, the exponent written when it is below -4 or
not below six. -/
namespace Typeflow.Text

/-- The exponent `x` with `10 ^ x ≤ num / den < 10 ^ (x + 1)` of a positive fraction. -/
def decimalExponent (num den : Nat) : Int :=
  if den ≤ num then (Nat.toDigits 10 (num / den)).length - 1
  else
    let inverse := (den + num - 1) / num
    Int.negOfNat (Nat.toDigits 10 (inverse - 1)).length

/-- A number of significant digits and the decimal exponent of the first one. -/
structure Significant where
  digits : Nat
  exponent : Int
  deriving DecidableEq, Repr

/-- Rounds a positive fraction to `count` significant digits, a half going to the even digit. -/
def significantOf (count : Nat) (num den : Nat) : Significant :=
  let x := decimalExponent num den
  let scaled := scale 10 ((count : Int) - 1 - x) num den
  let digits := roundDiv scaled.1 scaled.2
  if digits = Nat.pow 10 count then ⟨Nat.pow 10 (count - 1), x + 1⟩ else ⟨digits, x⟩

/-- A fraction part without its trailing zeros, with the point when anything is left. -/
def pointAnd (digits : List Char) : List Char :=
  let kept := (digits.reverse.dropWhile (· = '0')).reverse
  if kept.isEmpty then [] else '.' :: kept

/-- An exponent with its sign and at least two digits. -/
def exponentText (x : Int) : List Char :=
  let digits := Nat.toDigits 10 x.natAbs
  'e' :: (if x < 0 then '-' else '+') :: (if digits.length < 2 then '0' :: digits else digits)

/-- How six significant digits are written. -/
def Significant.text (s : Significant) : List Char :=
  let digits := Nat.toDigits 10 s.digits
  if s.exponent < -4 || 6 ≤ s.exponent then
    digits.take 1 ++ pointAnd (digits.drop 1) ++ exponentText s.exponent
  else if 0 ≤ s.exponent then
    let whole := s.exponent.toNat + 1
    digits.take whole ++ pointAnd (digits.drop whole)
  else '0' :: pointAnd (List.replicate (s.exponent.natAbs - 1) '0' ++ digits)

/-- A number with six significant digits at most. -/
def sixDigits : Double → String
  | .nan negative => if negative then "-nan" else "nan"
  | .infinity negative => if negative then "-inf" else "inf"
  | .finite negative m e =>
    let sign := if negative then ['-'] else []
    if m = 0 then String.ofList (sign ++ ['0'])
    else
      let fraction := scale 2 e m 1
      String.ofList (sign ++ (significantOf 6 fraction.1 fraction.2).text)

end Typeflow.Text
