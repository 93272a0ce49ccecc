import Typeflow.Text.Split

/-! Binary floating-point numbers of 53 bits, kept exactly: reading decimal text and comparing. -/
namespace Typeflow

/-- A finite number is `mantissa * 2 ^ exponent` in its only canonical form: the mantissa has 53 bits,
or the exponent is the least one, -1074. -/
inductive Double where
  | nan (negative : Bool)
  | infinity (negative : Bool)
  | finite (negative : Bool) (mantissa : Nat) (exponent : Int)
  deriving DecidableEq, Repr, Inhabited

/-- The quotient rounded to the nearest whole number, a half going to the even one. -/
def roundDiv (num den : Nat) : Nat :=
  let q := num / den
  let twice := 2 * (num % den)
  if twice < den then q
  else if den < twice then q + 1
  else if q % 2 = 0 then q else q + 1

/-- A positive fraction as numerator and denominator after multiplication by `base ^ power`. -/
def scale (base : Nat) (power : Int) (num den : Nat) : Nat × Nat :=
  if 0 ≤ power then (num * base.pow power.toNat, den) else (num, den * base.pow (-power).toNat)

namespace Double

def leastExponent : Int := -1074

def greatestExponent : Int := 971

/-- The least mantissa of 53 bits. -/
def leastFull : Nat := 4503599627370496

def zero (negative : Bool) : Double := .finite negative 0 leastExponent

/-- Rounds a positive fraction; too large a number becomes infinite. -/
def ofFraction (negative : Bool) (num den : Nat) : Double :=
  let guess : Int := Nat.log2 num - Nat.log2 den - 52
  let first := scale 2 (-guess) num den
  let exact := if first.1 / first.2 < leastFull then guess - 1 else guess
  let exponent := max exact leastExponent
  let scaled := scale 2 (-exponent) num den
  let mantissa := roundDiv scaled.1 scaled.2
  let carried := decide (mantissa = 2 * leastFull)
  let mantissa := if carried then leastFull else mantissa
  let exponent := if carried then exponent + 1 else exponent
  if exponent > greatestExponent then .infinity negative else .finite negative mantissa exponent

/-- The double nearest to `digits * 10 ^ power`. Powers beyond the range of doubles are cut first. -/
def ofDecimal (negative : Bool) (digits : Nat) (power : Int) : Double :=
  if digits = 0 then zero negative
  else if power > 400 then .infinity negative
  else if power + (Nat.toDigits 10 digits).length < -400 then zero negative
  else
    let fraction := scale 10 power digits 1
    ofFraction negative fraction.1 fraction.2

/-- Whether two numbers compare as equal: a not-a-number equals nothing and the zeros are equal. -/
def sameNumber : Double → Double → Bool
  | .nan _, _ | _, .nan _ => false
  | .infinity a, .infinity b => a == b
  | .finite a m e, .finite b n f => (m == 0 && n == 0) || (a == b && m == n && e == f)
  | _, _ => false

theorem sameNumber_comm {a b : Double} (h : sameNumber a b = true) : sameNumber b a = true := by
  cases a <;> cases b <;> simp [sameNumber] at h ⊢
  case infinity.infinity => exact h.symm
  case finite.finite =>
    rcases h with ⟨ha, hb⟩ | ⟨⟨ha, hb⟩, hc⟩
    · exact .inl ⟨hb, ha⟩
    · exact .inr ⟨⟨ha.symm, hb.symm⟩, hc.symm⟩

theorem sameNumber_trans {a b c : Double} (h : sameNumber a b = true) (g : sameNumber b c = true) :
    sameNumber a c = true := by
  cases a <;> cases b <;> cases c <;> simp [sameNumber] at h g ⊢
  case infinity.infinity.infinity => exact h.trans g
  case finite.finite.finite =>
    rcases h with ⟨ha, hb⟩ | ⟨⟨rfl, rfl⟩, rfl⟩
    · rcases g with ⟨-, hc⟩ | ⟨⟨-, rfl⟩, -⟩
      · exact .inl ⟨ha, hc⟩
      · exact .inl ⟨ha, hb⟩
    · exact g

/-- A number that agrees on all numbers that compare as equal. -/
def hashKey : Double → UInt64
  | .nan _ => 1
  | .infinity negative => if negative then 2 else 3
  | .finite negative m e => if m = 0 then 0 else hash (negative, m, e)

theorem hashKey_eq {a b : Double} (h : sameNumber a b = true) : hashKey a = hashKey b := by
  cases a <;> cases b <;> simp [sameNumber] at h
  · subst h; rfl
  · rcases h with ⟨ha, hb⟩ | ⟨⟨ha, hb⟩, hc⟩
    · simp [hashKey, ha, hb]
    · subst ha hb hc; rfl

/-- The digits of a decimal text as one number, with the count of the digits after the point. -/
structure Digits where
  number : Nat := 0
  count : Nat := 0
  rest : List Char := []

/-- Reads ASCII digits for as long as there are any. -/
def digitsFrom (number count : Nat) : List Char → Digits
  | [] => ⟨number, count, []⟩
  | c :: rest =>
    match Text.digit? c with
    | some d => digitsFrom (number * 10 + d) (count + 1) rest
    | none => ⟨number, count, c :: rest⟩

/-- The exponent after `e`, or zero when no number follows. -/
def exponentOf : List Char → Int
  | c :: rest =>
    if c = 'e' || c = 'E' then
      let signed : Bool × List Char :=
        match rest with
        | '-' :: more => (true, more)
        | '+' :: more => (false, more)
        | more => (false, more)
      let digits := digitsFrom 0 0 signed.2
      if signed.1 then -(digits.number : Int) else digits.number
    else 0
  | [] => 0

/-- Reads digits with or without a point among them. Text without a digit reads as zero, whatever its
sign. -/
def ofDigits (negative : Bool) (text : List Char) : Double :=
  let whole := digitsFrom 0 0 text
  match whole.rest with
  | '.' :: more =>
    let part := digitsFrom whole.number 0 more
    if whole.count + part.count = 0 then zero false
    else ofDecimal negative part.number (exponentOf part.rest - part.count)
  | more => if whole.count = 0 then zero false else ofDecimal negative whole.number (exponentOf more)

/-- Reads an unsigned number. -/
def ofUnsigned (negative : Bool) (text : List Char) : Double :=
  let lower := text.map Char.toLower
  if (Text.restAfter "inf".toList lower).isSome then .infinity negative
  else if (Text.restAfter "nan".toList lower).isSome then .nan negative
  else ofDigits negative text

/-- Reads a decimal number, `inf` or `nan`, each with an optional sign. -/
def ofText (text : String) : Double :=
  match text.toList.dropWhile Text.isBlank with
  | '-' :: rest => ofUnsigned true rest
  | '+' :: rest => ofUnsigned false rest
  | rest => ofUnsigned false rest

end Double

end Typeflow
