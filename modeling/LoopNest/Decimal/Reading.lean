import LoopNest.Decimal.Shortest
/-!
# Doubles from text

A decimal number becomes the nearest double, with half a step going to the even neighbour. The
text of a double is an optional sign and either a word (`inf`, `infinity`, `nan`, in letters of
either case) or digits with an optional point among, before or after them and an optional
exponent.
-/

namespace LoopNest.Decimal

/-- The double nearest to `digits * 10 ^ exponent`. No double lies beyond `10 ^ 310`, and all
below `10 ^ -330` round to zero. -/
def nearest (digits : Nat) (exponent : Int) : Float :=
  if digits = 0 then 0.0
  else if exponent + digitCount digits > 310 then 1.0 / 0.0
  else if exponent + digitCount digits < -330 then 0.0
  else if 0 ≤ exponent then Float.ofScientific digits false exponent.toNat
  else Float.ofScientific digits true (-exponent).toNat

/-- The value of decimal digits, most significant first. -/
def natOfDigits (ds : List Char) : Nat :=
  ds.foldl (fun n d => 10 * n + (d.toNat - '0'.toNat)) 0

/-- A sign, if there is one, and what follows it. -/
def splitSign : List Char → Bool × List Char
  | '-' :: rest => (true, rest)
  | '+' :: rest => (false, rest)
  | rest => (false, rest)

/-- Digits in front, and what follows them. -/
def splitDigits (cs : List Char) : List Char × List Char := cs.span Char.isDigit

/-- The exponent at the end of a number: none, or a mark with digits. -/
def exponent? : List Char → Option Int
  | [] => some 0
  | mark :: rest =>
    let (negative, ds) := splitSign rest
    if mark.toLower = 'e' ∧ !ds.isEmpty ∧ ds.all Char.isDigit then
      some (if negative then -(natOfDigits ds : Int) else natOfDigits ds)
    else none

/-- An unsigned number: digits, at least one, with an optional point and exponent. -/
def unsigned? (cs : List Char) : Option Float :=
  let (whole, rest) := splitDigits cs
  let (fraction, rest) :=
    match rest with
    | '.' :: rest => splitDigits rest
    | rest => ([], rest)
  if whole.isEmpty ∧ fraction.isEmpty then none
  else (exponent? rest).map fun e => nearest (natOfDigits (whole ++ fraction)) (e - fraction.length)

/-- The double that a text denotes. -/
def read? (text : String) : Option Float :=
  let (negative, cs) := splitSign text.toList
  let word := String.ofList (cs.map Char.toLower)
  let magnitude : Option Float :=
    if word = "inf" ∨ word = "infinity" then some (1.0 / 0.0)
    else if word = "nan" then some (0.0 / 0.0)
    else unsigned? cs
  magnitude.map fun x => if negative then -x else x

end LoopNest.Decimal
