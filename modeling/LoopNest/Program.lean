import LoopNest.Equation
import LoopNest.Expr.Text
/-!
# Programs

A program is a table of dimensions, the scalars bound when it runs, and equations in order of
declaration.
-/

namespace LoopNest

structure Program where
  dims : DimTable
  /-- Scalars that guard predicates may mention, sorted. -/
  scalars : List String
  equations : List Equation
deriving Inhabited

namespace Program

/-- Names of every tensor written or read on a right-hand side. -/
def tensors (p : Program) : List String :=
  SortedSet.ofList (p.equations.flatMap fun eq =>
    eq.lhs.tensor :: eq.reads.map Access.tensor)

/-- The dimensions that an equation mentions exist, and its subdomain is as it must be. -/
def checkEquation (t : DimTable) (eq : Equation) : Except ModelError Unit := do
  eq.dims.forM t.check
  eq.checkMappings t

def check (p : Program) : Except ModelError Unit :=
  p.equations.forM (checkEquation p.dims)

/-! ## Text -/

def dimensionLine (t : DimTable) (d : DimId) : String :=
  let e := t.get d
  let size := if e.isSub then ", size " ++ (t.sizeExpr d).text t else ""
  "  [" ++ toString d.index ++ "] " ++ e.name ++ ": " ++ e.kind.text t ++ size ++ "\n"

def equationLine (t : DimTable) (eq : Equation) (i : Nat) : String :=
  let mapping := fun (pair : DimId × DimId) =>
    "  [" ++ t.name pair.1 ++ " -> " ++ t.name pair.2 ++ "]"
  let implicit :=
    if eq.implicit.isEmpty then ""
    else "  implicit(" ++ ", ".intercalate (eq.implicit.map t.name) ++ ")"
  "  e" ++ toString i ++ ": " ++ eq.lhs.text t ++ " = " ++ eq.rhs.text t ++
    String.join (eq.subdomain.map mapping) ++ implicit ++ "\n"

/-- The program for people to read: its dimensions, then its scalars and its equations, if there
are any. -/
def text (p : Program) : String :=
  let dims := String.join (p.dims.ids.map (dimensionLine p.dims))
  let scalars :=
    if p.scalars.isEmpty then "" else "\nScalars: " ++ ", ".intercalate p.scalars ++ "\n"
  let equations :=
    if p.equations.isEmpty then ""
    else "\nEquations:\n" ++ String.join (p.equations.mapIdx fun i eq => equationLine p.dims eq i)
  "Dimensions:\n" ++ dims ++ scalars ++ equations

end Program

end LoopNest
