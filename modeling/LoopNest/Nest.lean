import LoopNest.DimTable.Extent
/-!
# Inside a nest of loops

Inside a nest every dimension has a value that hangs on the loop over its root: a root or a part
of it is the loop variable itself, a point index of a buffer wraps around the slots, and a point
admitted by a stride is numbered by the strides before it. `Nest.expr` puts these values in the
place of dimensions, so that accesses become elements; the result is folded.
-/

namespace LoopNest

/-- Loops around a point, outermost first. -/
structure Nest where
  dims : DimTable
  loops : List DimId

namespace Nest

/-- The loop over the root of `d`, if there is one. -/
def loopFor? (n : Nest) (d : DimId) : Option DimId :=
  n.loops.find? fun l => n.dims.root l == n.dims.root d

/-- How many loops are around the body of the loop over the root of `d`, if there is one. -/
def depthOf? (n : Nest) (d : DimId) : Option Nat :=
  (n.loops.findIdx? fun l => n.dims.root l == n.dims.root d).map (· + 1)

/-- The value of the first dimension of a chain, before any wrapping. -/
def valueAlong (n : Nest) : List DimId → Expr
  | [] => default
  | d :: above =>
    let e := n.dims.get d
    match e.kind with
    | .conditional _ (.stride _) => Expr.fold .floorDiv (valueAlong n above) (.symbol e.factorName)
    | .conditional _ (.predicate _) | .stepping _ _ => valueAlong n above
    | _ => .dim ((n.loopFor? d).getD d)

/-- The value of a dimension, before any wrapping. -/
def value (n : Nest) (d : DimId) : Expr := n.valueAlong (n.dims.chain d)

/-- The value of an index: displaced, and wrapped if the dimension is a buffer's. -/
def displaced (n : Nest) (d : DimId) (shift : Expr) : Expr :=
  match (n.dims.get d).kind with
  | .stepping parent modulo => Expr.fold .mod (n.value parent + shift) (.int modulo)
  | _ => n.value d + shift

mutual

/-- The expression in terms of loop variables, folded. -/
def expr (n : Nest) : Expr → Expr
  | .int v => .int v
  | .float x => .float x
  | .symbol s => .symbol s
  | .dim d => n.displaced d (.int 0)
  | .access tensor is => .element tensor (indices n is)
  | .element tensor es => .element tensor (exprs n es)
  | .neg e => Expr.negated (expr n e)
  | .binary op a b => Expr.fold op (expr n a) (expr n b)
  | .compare op a b => .compare op (expr n a) (expr n b)
  | .and es => Expr.all (exprs n es)
  | .call f es => .call f (exprs n es)

/-- The value of an index. -/
def index (n : Nest) : Index → Expr
  | .fixed d k => n.displaced d (.int k)
  | .symbolic d e => n.displaced d (expr n e)

def exprs (n : Nest) : List Expr → List Expr
  | [] => []
  | e :: es => expr n e :: exprs n es

def indices (n : Nest) : List Index → List Expr
  | [] => []
  | i :: is => index n i :: indices n is

end

theorem exprs_eq_map (n : Nest) (es : List Expr) : n.exprs es = es.map n.expr := by
  induction es with
  | nil => rfl
  | cons e es ih => rw [exprs, ih, List.map_cons]

theorem indices_eq_map (n : Nest) (is : List Index) : n.indices is = is.map n.index := by
  induction is with
  | nil => rfl
  | cons i is ih => rw [indices, ih, List.map_cons]

/-- The element that an access denotes. -/
def access (n : Nest) (a : Access) : Expr := .element a.tensor (n.indices a.indices)

end Nest

end LoopNest
