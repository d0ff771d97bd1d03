import LoopNest.Decimal.Layout
import LoopNest.DimTable.Extent
/-!
# Expressions as text

An operand stands in parentheses where it binds less tightly than its operator, and on the right
of an operator that does not associate also where it binds as tightly. Dimensions are written by
name, so the table that has issued them is needed.
-/

namespace LoopNest

/-- Doubles are written with the fewest digits that identify them, positionally from `0.0001` to
below `10 ^ 16`. -/
def Expr.floatStyle : Decimal.Style := ⟨-4, 16, "e", "NaN", "inf"⟩

namespace BinOp

def text : BinOp → String
  | add => "+"
  | sub => "-"
  | mul => "*"
  | div => "/"
  | floorDiv => "//"
  | mod => "%"

/-- How tightly an operator binds. -/
def precedence : BinOp → Nat
  | add | sub => 3
  | mul | div | floorDiv | mod => 4

/-- Operands of equal precedence on the right need no parentheses. -/
def associates : BinOp → Bool
  | add | mul => true
  | sub | div | floorDiv | mod => false

end BinOp

def CmpOp.text : CmpOp → String
  | .eq => "=="
  | .ne => "!="
  | .lt => "<"
  | .le => "<="
  | .gt => ">"
  | .ge => ">="

/-- How tightly the outermost operator of an expression binds. -/
def Expr.precedence : Expr → Nat
  | .and _ => 1
  | .compare _ _ _ => 2
  | .binary op _ _ => op.precedence
  | .neg _ => 5
  | .int v => if v < 0 then 5 else 6
  | _ => 6

/-- A text in parentheses, where they are needed. -/
def parenthesized (needed : Bool) (text : String) : String :=
  if needed then "(" ++ text ++ ")" else text

/-- A dimension's name and a displacement from it; none is written for zero. -/
def shiftedText (name : String) (k : Int) : String :=
  if k = 0 then name
  else if k < 0 then name ++ " - " ++ toString k.natAbs
  else name ++ " + " ++ toString k

mutual

/-- The text of an expression. -/
def Expr.text (t : DimTable) : Expr → String
  | .int v => toString v
  | .float x => Expr.floatStyle.text x
  | .symbol n => n
  | .dim d => t.name d
  | .access tensor is => tensor ++ "[" ++ ", ".intercalate (Index.texts t is) ++ "]"
  | .element tensor es => tensor ++ "[" ++ ", ".intercalate (Expr.texts t es) ++ "]"
  | .neg e => "-" ++ parenthesized (e.precedence < 5) (e.text t)
  | .binary op a b =>
    let own := op.precedence
    parenthesized (a.precedence < own) (a.text t) ++ " " ++ op.text ++ " " ++
      parenthesized (b.precedence < own || (b.precedence == own && !op.associates)) (b.text t)
  | .compare op a b =>
    parenthesized (a.precedence ≤ 2) (a.text t) ++ " " ++ op.text ++ " " ++
      parenthesized (b.precedence ≤ 2) (b.text t)
  | .and [] => "true"
  | .and es => " && ".intercalate (Expr.termTexts t es)
  | .call f es => f ++ "(" ++ ", ".intercalate (Expr.texts t es) ++ ")"

def Index.text (t : DimTable) : Index → String
  | .fixed d k => shiftedText (t.name d) k
  | .symbolic d e => t.name d ++ " + (" ++ e.text t ++ ")"

def Expr.texts (t : DimTable) : List Expr → List String
  | [] => []
  | e :: es => e.text t :: Expr.texts t es

/-- The texts of a conjunction's terms. -/
def Expr.termTexts (t : DimTable) : List Expr → List String
  | [] => []
  | e :: es => parenthesized (e.precedence ≤ 1) (e.text t) :: Expr.termTexts t es

def Index.texts (t : DimTable) : List Index → List String
  | [] => []
  | i :: is => i.text t :: Index.texts t is

end

/-- The text of an access. -/
def Access.text (t : DimTable) (a : Access) : String := a.toExpr.text t

/-- The text of an interval. -/
def Interval.text (t : DimTable) (i : Interval) : String :=
  "[" ++ i.min.text t ++ ", " ++ i.max.text t ++ "]"

/-! ## Dimensions -/

def Side.text : Side → String
  | .left => "left"
  | .right => "right"
  | .middle => "middle"

/-- The text of what admits points of a parent. -/
def Condition.text (t : DimTable) : Condition → String
  | .stride (some k) => "factor " ++ toString k
  | .stride none => "factor default"
  | .predicate e => "if " ++ e.text t

/-- A root's kind, with its size where it has one. -/
def sizedText (kind : String) : Option Nat → String
  | some n => kind ++ "(" ++ toString n ++ ")"
  | none => kind

/-- The text of how a dimension comes about. -/
def DimKind.text (t : DimTable) : DimKind → String
  | .space size => sizedText "space" size
  | .time size => sizedText "time" size
  | .stepping p modulo => "stepping(" ++ t.name p ++ ", modulo " ++ toString modulo ++ ")"
  | .sub p side left right =>
    "sub(" ++ t.name p ++ ", " ++ side.text ++ ", " ++ toString left ++ ", " ++ toString right ++
      ")"
  | .conditional p c => "conditional(" ++ t.name p ++ ", " ++ c.text t ++ ")"

end LoopNest
