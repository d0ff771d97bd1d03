import LoopNest.Journal
import LoopNest.Program
import LoopNest.Problem.Decode
/-!
# From a problem to a program

Names become dimensions in order of declaration, so a dimension comes after its parent and after
whatever its condition mentions. Expressions are built folded; a sum or product of several terms
is folded from the left.
-/

namespace LoopNest

/-- What makes a well-formed problem meaningless, apart from its dimensions. -/
inductive Problem.Fault where
  | scalarIsDimension (name : String)
  | symbolIsDimension (name : String)
  | emptyTensorName
  | noOperand (operator : String)
deriving DecidableEq, Repr

/-- Why a text is no program. -/
inductive ProblemError where
  /-- The text is no JSON or not of the right form. -/
  | malformedText
  | unknownDimension (name : String)
  | invalid (fault : Problem.Fault)
  | model (error : ModelError)
deriving DecidableEq, Repr

namespace Problem

namespace Fault

def message : Fault → String
  | scalarIsDimension name => "scalar '" ++ name ++ "' shadows a dimension"
  | symbolIsDimension name =>
    "'" ++ name ++ "' is a dimension; use \x7b\"dim\": \"" ++ name ++ "\"\x7d"
  | emptyTensorName => "access with empty tensor name"
  | noOperand operator => "'" ++ operator ++ "' needs at least one operand"

end Fault

end Problem

namespace ProblemError

def message : ProblemError → String
  | malformedText => "malformed problem text"
  | unknownDimension name => "unknown dimension '" ++ name ++ "'"
  | invalid fault => "invalid problem: " ++ fault.message
  | model error => error.message

end ProblemError

namespace Problem

/-- The dimension of a name. -/
def dimNamed (t : DimTable) (name : String) : Except ProblemError DimId :=
  match t.find? name with
  | some d => .ok d
  | none => .error (.unknownDimension name)

/-- A left-nested application of an operator to at least one operand. -/
def foldLeft (op : BinOp) (name : String) : List Expr → Except ProblemError Expr
  | [] => .error (.invalid (.noOperand name))
  | e :: es => .ok (es.foldl (Expr.fold op) e)

/-- The conjunction of at least one term. -/
def conjunction : List Expr → Except ProblemError Expr
  | [] => .error (.invalid (.noOperand "and"))
  | es => .ok (Expr.all es)

/-- A scalar's name, which is no dimension's. -/
def scalarNamed (t : DimTable) (name : String) : Except ProblemError Expr :=
  match t.find? name with
  | some _ => .error (.invalid (.symbolIsDimension name))
  | none => .ok (.symbol name)

/-- A tensor's name, which is not empty. -/
def checkTensor (tensor : String) : Except ProblemError Unit :=
  if tensor = "" then .error (.invalid .emptyTensorName) else .ok ()

mutual

/-- The expression that a term stands for. -/
def Term.toExpr (t : DimTable) : Term → Except ProblemError Expr
  | .int v => .ok (.int v)
  | .float x => .ok (.float x)
  | .symbol n => scalarNamed t n
  | .dim n => do return .dim (← dimNamed t n)
  | .access tensor is => do
    checkTensor tensor
    return .access tensor (← Place.toIndices t is)
  | .neg e => do return Expr.negated (← e.toExpr t)
  | .sum es => do foldLeft .add "add" (← Term.toExprs t es)
  | .product es => do foldLeft .mul "mul" (← Term.toExprs t es)
  | .binary op a b => do
    let a ← a.toExpr t
    return Expr.fold op a (← b.toExpr t)
  | .compare op a b => do
    let a ← a.toExpr t
    return .compare op a (← b.toExpr t)
  | .and es => do conjunction (← Term.toExprs t es)
  | .call f es => do return .call f (← Term.toExprs t es)

def Place.toIndex (t : DimTable) : Place → Except ProblemError Index
  | .fixed n k => do return .fixed (← dimNamed t n) k
  | .symbolic n e => do
    let d ← dimNamed t n
    return Index.displaced d (← e.toExpr t)

def Term.toExprs (t : DimTable) : List Term → Except ProblemError (List Expr)
  | [] => .ok []
  | e :: es => do
    let e ← e.toExpr t
    return e :: (← Term.toExprs t es)

def Place.toIndices (t : DimTable) : List Place → Except ProblemError (List Index)
  | [] => .ok []
  | i :: is => do
    let i ← i.toIndex t
    return i :: (← Place.toIndices t is)

end

/-- The condition of a conditional dimension, if it has one. -/
def condition (t : DimTable) : Option Term → Except ProblemError (Option Expr)
  | none => .ok none
  | some e => do return some (← e.toExpr t)

/-- The table with a declared dimension added. -/
def addDimension (t : DimTable) (decl : DimensionDecl) : Except ProblemError DimTable := do
  let added : Except ModelError (DimTable × DimId) ←
    match decl.origin with
    | .space size => pure (t.space decl.name size)
    | .time size => pure (t.time decl.name size)
    | .stepping parent modulo => do
      let p ← dimNamed t parent
      pure (t.stepping decl.name p modulo)
    | .sub parent side left right => do
      let p ← dimNamed t parent
      pure (t.sub decl.name p side left right)
    | .conditional parent factor predicate => do
      let p ← dimNamed t parent
      let e ← condition t predicate
      pure (t.conditional decl.name p factor e)
  return (← added.mapError .model).1

/-- Declared scalars, none of which has a dimension's name. -/
def addScalar (t : DimTable) (scalars : List String) (name : String) :
    Except ProblemError (List String) :=
  match t.find? name with
  | some _ => .error (.invalid (.scalarIsDimension name))
  | none => .ok (SortedSet.insert name scalars)

/-- A pair of a subdomain. -/
def mapping (t : DimTable) (pair : String × String) : Except ProblemError (DimId × DimId) := do
  let old ← dimNamed t pair.1
  return (old, ← dimNamed t pair.2)

/-- The equation that a declaration stands for. -/
def toEquation (t : DimTable) (decl : EquationDecl) : Except ProblemError Equation := do
  checkTensor decl.tensor
  let indices ← Place.toIndices t decl.indices
  let rhs ← decl.rhs.toExpr t
  let subdomain ← decl.subdomain.mapM (mapping t)
  let implicit ← decl.implicit.mapM (dimNamed t)
  return ⟨⟨decl.tensor, indices⟩, rhs, subdomain, implicit⟩

/-- The program that a problem stands for. -/
def toProgram (p : Problem) : Except ProblemError Program := do
  let dims ← p.dimensions.foldlM addDimension DimTable.empty
  let scalars ← p.scalars.foldlM (addScalar dims) []
  let equations ← p.equations.mapM (toEquation dims)
  let program : Program := ⟨dims, scalars, equations⟩
  program.check.mapError .model
  return program

end Problem

/-- The program that a problem text describes. -/
def Program.ofText (text : String) : Except ProblemError Program :=
  match Problem.ofText? text with
  | some problem => problem.toProgram
  | none => .error .malformedText

/-- Reading a program notes its size. -/
def Program.read (text : String) : Logged ProblemError Program := do
  let program ← Logged.ofExcept (Program.ofText text)
  Logged.note (.parsed program.dims.size program.equations.length)
  return program

end LoopNest
