import LoopNest.Decimal.Shortest
/-!
# Doubles as text

A style says where positional notation ends; `Style.text` writes a double with the digits of
`Magnitude.shortest` in that style.
-/

namespace LoopNest.Decimal

/-- Where a number is written positionally, by the power of ten of its leading digit. -/
structure Style where
  /-- Least power written positionally. -/
  positionalFrom : Int
  /-- Least power above it that is not. -/
  positionalBelow : Int
  /-- What stands before an exponent. -/
  mark : String
  notANumber : String
  infinity : String

/-- `n` zeros. -/
def zeros (n : Nat) : String := String.ofList (List.replicate n '0')

/-- Digits with a point after the first `places` of them and at least one digit on both sides. -/
def positional (digits : List Char) (places : Int) : String :=
  if places ≤ 0 then "0." ++ zeros (-places).toNat ++ String.ofList digits
  else if digits.length ≤ places then
    String.ofList digits ++ zeros (places.toNat - digits.length) ++ ".0"
  else String.ofList (digits.take places.toNat) ++ "." ++ String.ofList (digits.drop places.toNat)

/-- One digit, a point and the rest if there is one, and the exponent of the leading digit. -/
def withExponent (mark : String) (digits : List Char) (lead : Int) : String :=
  let head := String.ofList (digits.take 1)
  let rest := digits.drop 1
  let fraction := if rest.isEmpty then "" else "." ++ String.ofList rest
  head ++ fraction ++ mark ++ toString lead

namespace Style

/-- A positive decimal in a style. -/
def decimal (style : Style) (s : Scientific) : String :=
  let digits := Nat.toDigits 10 s.digits
  let lead := s.exponent + digits.length - 1
  if style.positionalFrom ≤ lead ∧ lead < style.positionalBelow then
    positional digits (lead + 1)
  else withExponent style.mark digits lead

/-- A double in a style. -/
def text (style : Style) (x : Float) : String :=
  let bits := x.toBits.toNat
  let field := bits / Nat.pow 2 52 % Nat.pow 2 11
  let fraction := bits % Nat.pow 2 52
  let sign := if Nat.pow 2 63 ≤ bits then "-" else ""
  if field = 2047 then if fraction = 0 then sign ++ style.infinity else style.notANumber
  else if field = 0 ∧ fraction = 0 then sign ++ "0.0"
  else sign ++ style.decimal (Magnitude.ofFields field fraction).shortest

end Style

end LoopNest.Decimal
