/-!
# The fewest digits that identify a double

A finite double is `m * 2^q`, and the reals that round to it form an interval whose ends belong to
it exactly if `m` is even. `Magnitude.shortest` looks for a decimal in that interval on coarser
grids first: a point of a grid lies in the interval only if one of the value's two neighbours on
that grid does, so those two are all that has to be tried. All arithmetic is exact.
-/

namespace LoopNest.Decimal

/-- A non-negative rational number, `num / den`. -/
structure Ratio where
  num : Nat
  den : Nat

namespace Ratio

/-- `n * base ^ e`, for an exponent of either sign. -/
def scaled (n base : Nat) (e : Int) : Ratio := ⟨n * Nat.pow base e.toNat, Nat.pow base (-e).toNat⟩

def le (a b : Ratio) : Bool := a.num * b.den ≤ b.num * a.den

def lt (a b : Ratio) : Bool := a.num * b.den < b.num * a.den

/-- The number of whole steps of `10 ^ k` that fit below. -/
def steps (r : Ratio) (k : Int) : Nat :=
  r.num * Nat.pow 10 (-k).toNat / (r.den * Nat.pow 10 k.toNat)

end Ratio

/-- The number of digits of a natural number; zero has one. -/
def digitCount (n : Nat) : Nat := (Nat.toDigits 10 n).length

/-- The power of ten of a positive ratio's leading digit. -/
def Ratio.lead (r : Ratio) : Int :=
  if r.den ≤ r.num then digitCount (r.num / r.den) - 1
  else -(digitCount ((r.den + r.num - 1) / r.num - 1) : Int)

/-- A decimal number, `digits * 10 ^ exponent`. -/
structure Scientific where
  digits : Nat
  exponent : Int
deriving DecidableEq, Repr

namespace Scientific

def ratio (s : Scientific) : Ratio := .scaled s.digits 10 s.exponent

/-- The same number without zeros at the end of its digits. -/
def trim (digits : Nat) (exponent : Int) : Scientific :=
  if h : digits ≠ 0 ∧ digits % 10 = 0 then trim (digits / 10) (exponent + 1)
  else ⟨digits, exponent⟩
termination_by digits
decreasing_by omega

end Scientific

/-- A finite double without its sign, `mantissa * 2 ^ exponent`. -/
structure Magnitude where
  mantissa : Nat
  exponent : Int
  /-- The gap to the next double below is half the gap to the next one above. -/
  narrowBelow : Bool

namespace Magnitude

/-- The double of an exponent field and a fraction field. -/
def ofFields (field fraction : Nat) : Magnitude :=
  if field = 0 then ⟨fraction, -1074, false⟩
  else ⟨Nat.pow 2 52 + fraction, (field : Int) - 1075, fraction = 0 ∧ 1 < field⟩

def ratio (x : Magnitude) : Ratio := .scaled x.mantissa 2 x.exponent

/-- Lower end of the reals that round to the double. -/
def lower (x : Magnitude) : Ratio :=
  .scaled (4 * x.mantissa - if x.narrowBelow then 1 else 2) 2 (x.exponent - 2)

/-- Upper end of the reals that round to the double. -/
def upper (x : Magnitude) : Ratio := .scaled (4 * x.mantissa + 2) 2 (x.exponent - 2)

/-- A number that reads back as the double. -/
def identifies (x : Magnitude) (r : Ratio) : Bool :=
  if x.mantissa % 2 = 0 then x.lower.le r && r.le x.upper
  else x.lower.lt r && r.lt x.upper

/-- The nearer of the double's two neighbours on the grid of `10 ^ k` that identify it; halfway
between them, the greater. -/
def onGrid? (x : Magnitude) (k : Int) : Option Scientific :=
  let below : Scientific := ⟨x.ratio.steps k, k⟩
  let above : Scientific := ⟨below.digits + 1, k⟩
  match x.identifies below.ratio, x.identifies above.ratio with
  | true, true =>
    let middle := Ratio.scaled (2 * below.digits + 1) 10 k
    if Ratio.lt ⟨2 * x.ratio.num, x.ratio.den⟩ middle then some below else some above
  | true, false => some below
  | false, true => some above
  | false, false => none

/-- The decimal of fewest digits that identifies a positive double. Seventeen digits always
suffice; past them the exact value would be given. -/
def shortest (x : Magnitude) : Scientific :=
  let found := (List.range 17).findSome? fun (n : Nat) => x.onGrid? (x.ratio.lead - n)
  match found with
  | some s => Scientific.trim s.digits s.exponent
  | none => ⟨x.ratio.num * Nat.pow 5 (-x.exponent).toNat, min 0 x.exponent⟩

end Magnitude

end LoopNest.Decimal
