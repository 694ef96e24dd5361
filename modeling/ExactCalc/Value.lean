import ExactCalc.Rounding
/-!
# Values

The result of a calculation as it is shown: an exact rational number rounded to at most `precision` digits after the
point.  A rounded number that is an integer is an `integer`; any other is a `decimal` whose mantissa does not end in a
zero.
-/
namespace ExactCalc

inductive Value where
  | integer (n : Int)
  /-- `mantissa` over ten to the power `scale`. -/
  | decimal (mantissa : Int) (scale : Nat)
deriving DecidableEq, Repr

/-- Digits after the point, unless the user asks for another number. -/
def defaultPrecision : Nat := 30

/-- The greatest number of digits after the point that the user gets. -/
def maxPrecision : Nat := 200

def clampPrecision (n : Nat) : Nat :=
  min n maxPrecision

namespace Value

/-- The integer of absolute value `n` with the sign of `r`. -/
def withSignOf (r : Rat) (n : Nat) : Int :=
  if r.num < 0 then -(n : Int) else n

/-- **Rounds to `precision` digits after the point**, a tie away from zero. -/
def ofRat (r : Rat) (precision : Nat) : Value :=
  if r.den = 1 then integer r.num
  else
    let unit := tenPow precision
    let scaled := roundQuotient (r.num.natAbs * unit) r.den
    if scaled % unit = 0 then integer (withSignOf r (scaled / unit))
    else
      let stripped := stripZeros scaled precision
      decimal (withSignOf r stripped.1) stripped.2

/-- The rational number that a value stands for. -/
def toRat : Value → Rat
  | integer n   => n
  | decimal m s => mkRat m (tenPow s)

/-- The word for the kind of number, as answers show it. -/
def kind : Value → String
  | integer _   => "entier"
  | decimal _ _ => "décimal"

/-- The digits of `n`, with zeros in front up to the given width. -/
def paddedDigits (n width : Nat) : List Char :=
  let digits := Nat.toDigits 10 n
  List.replicate (width - digits.length) '0' ++ digits

/-- `m` over ten to the power `scale`, written with exactly `scale` digits after the point; no point if there are
none. -/
def decimalChars (m : Int) (scale : Nat) : List Char :=
  let unit := tenPow scale
  let sign := if m < 0 then ['-'] else []
  let whole := Nat.toDigits 10 (m.natAbs / unit)
  if scale = 0 then sign ++ whole
  else sign ++ whole ++ '.' :: paddedDigits (m.natAbs % unit) scale

def text : Value → String
  | integer n   => toString n
  | decimal m s => String.ofList (decimalChars m s)

end Value

end ExactCalc
