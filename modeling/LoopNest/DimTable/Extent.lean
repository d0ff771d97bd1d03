import LoopNest.Expr.Fold
import LoopNest.DimTable.Basic
/-!
# The extent of a dimension

Every dimension runs over an inclusive interval. Its bounds are expressions in the parameters
that a run may bind; its number of points is known beforehand where the sizes along its chain
are. Each of these is one recursion along the chain of parents, nearest first.
-/

namespace LoopNest

/-- An inclusive interval with symbolic ends. -/
structure Interval where
  min : Expr
  max : Expr
deriving Inhabited

/-- What a parameter of a dimension sets. -/
inductive ParameterKind where
  | min
  | max
  | leftThickness
  | rightThickness
  | factor
deriving DecidableEq, Repr, Inhabited

/-- A value that a run may bind by name; without a binding the default holds, if there is one. -/
structure Parameter where
  name : String
  kind : ParameterKind
  dim : DimId
  default? : Option Int
deriving DecidableEq, Repr, Inhabited

namespace DimTable

/-- The interval of the first dimension of a lineage. -/
def intervalAlong : List Dimension → Interval
  | [] => default
  | d :: above =>
    match d.kind with
    | .space _ | .time _ => ⟨.symbol d.minName, .symbol d.maxName⟩
    | .stepping _ _ | .conditional _ _ => intervalAlong above
    | .sub _ side _ _ =>
      let whole := intervalAlong above
      match side with
      | .left => ⟨whole.min, whole.min + .symbol d.leftName - .int 1⟩
      | .middle => ⟨whole.min + .symbol d.leftName, whole.max - .symbol d.rightName⟩
      | .right => ⟨whole.max - .symbol d.rightName + .int 1, whole.max⟩

/-- Number of points known beforehand, if any. -/
def knownSize (t : DimTable) (d : DimId) : Option Nat := Dimension.sizeIn t.entries d

/-- The bounds of a dimension in terms of parameters. -/
def interval (t : DimTable) (d : DimId) : Interval := intervalAlong (t.lineage d)

/-- Number of points in terms of parameters. -/
def sizeExpr (t : DimTable) (d : DimId) : Expr :=
  let e := t.get d
  match e.kind with
  | .sub _ .left _ _ => .symbol e.leftName
  | .sub _ .right _ _ => .symbol e.rightName
  | .sub p .middle _ _ =>
    (t.interval p).max - (t.interval p).min - .symbol e.leftName - .symbol e.rightName + .int 1
  | _ => (t.interval d).max - (t.interval d).min + .int 1

/-- The parameters that a dimension brings in itself. A root's last point is known where its
size fits a word. -/
def parameters (t : DimTable) (d : DimId) : List Parameter :=
  let e := t.get d
  match e.kind with
  | .space size | .time size =>
    [⟨e.minName, .min, d, some 0⟩,
     ⟨e.maxName, .max, d, (size.bind fun n => Word.checked n).map (· - 1)⟩]
  | .stepping _ _ => []
  | .sub _ .left left _ => [⟨e.leftName, .leftThickness, d, some left⟩]
  | .sub _ .right _ right => [⟨e.rightName, .rightThickness, d, some right⟩]
  | .sub _ .middle left right =>
    [⟨e.leftName, .leftThickness, d, some left⟩, ⟨e.rightName, .rightThickness, d, some right⟩]
  | .conditional _ (.stride factor) => [⟨e.factorName, .factor, d, factor⟩]
  | .conditional _ (.predicate _) => []

/-- Scalars that a conditional dimension's predicate mentions. -/
def predicateSymbols (t : DimTable) (d : DimId) : List String :=
  ((t.get d).predicate?.map Expr.symbols).getD []

/-- Dimensions that a conditional dimension's predicate mentions. -/
def predicateDims (t : DimTable) (d : DimId) : List DimId :=
  ((t.get d).predicate?.map Expr.dims).getD []

end DimTable

end LoopNest
