import LoopNest.SortedSet
import LoopNest.Expr.Basic
/-!
# What occurs in an expression, and substitution

`Expr.nodes` lists an expression and all expressions inside it, each before its parts and
displacements of accesses included. Scalars, dimensions and accesses are read off that list.
`Expr.subst` replaces a dimension wherever one can occur.
-/

namespace LoopNest

/-! ## Occurrences -/

mutual

/-- The expression and every expression inside it, outermost first. -/
def Expr.nodes : Expr → List Expr
  | .int v => [.int v]
  | .float v => [.float v]
  | .symbol n => [.symbol n]
  | .dim d => [.dim d]
  | .access t is => .access t is :: Index.nodesOf is
  | .element t es => .element t es :: Expr.nodesOf es
  | .neg e => .neg e :: e.nodes
  | .binary o a b => .binary o a b :: (a.nodes ++ b.nodes)
  | .compare o a b => .compare o a b :: (a.nodes ++ b.nodes)
  | .and es => .and es :: Expr.nodesOf es
  | .call f es => .call f es :: Expr.nodesOf es

/-- The expressions inside an index. -/
def Index.nodes : Index → List Expr
  | .fixed _ _ => []
  | .symbolic _ e => e.nodes

def Expr.nodesOf : List Expr → List Expr
  | [] => []
  | e :: es => e.nodes ++ Expr.nodesOf es

def Index.nodesOf : List Index → List Expr
  | [] => []
  | i :: is => i.nodes ++ Index.nodesOf is

end

theorem Expr.nodesOf_eq_flatMap (es : List Expr) : Expr.nodesOf es = es.flatMap Expr.nodes := by
  induction es with
  | nil => rfl
  | cons e es ih => rw [Expr.nodesOf, ih, List.flatMap_cons]

theorem Index.nodesOf_eq_flatMap (is : List Index) : Index.nodesOf is = is.flatMap Index.nodes := by
  induction is with
  | nil => rfl
  | cons i is ih => rw [Index.nodesOf, ih, List.flatMap_cons]

theorem Expr.mem_nodes_self (e : Expr) : e ∈ e.nodes := by
  cases e <;> exact List.mem_cons_self

namespace Expr

/-- The name of a scalar symbol. -/
def symbol? : Expr → Option String
  | .symbol n => some n
  | _ => none

/-- The access that an expression is. -/
def access? : Expr → Option Access
  | .access t is => some ⟨t, is⟩
  | _ => none

/-- The dimensions that an expression names itself, apart from its parts. -/
def ownDims : Expr → List DimId
  | .dim d => [d]
  | .access _ is => is.map Index.dim
  | _ => []

end Expr

namespace Expr

/-- Names of the scalars that occur. -/
def symbols (e : Expr) : List String :=
  SortedSet.ofList (e.nodes.filterMap symbol?)

/-- Dimensions that occur, in order of first appearance. -/
def dims (e : Expr) : List DimId :=
  (e.nodes.flatMap ownDims).eraseDups

/-- Tensor accesses, in order of appearance. -/
def accesses (e : Expr) : List Access :=
  e.nodes.filterMap access?

end Expr

/-! ## Substitution -/

/-- The dimension `new` in the place of `old`, any other as it is. -/
def DimId.subst (d old new : DimId) : DimId := if d = old then new else d

mutual

/-- The expression with dimension `old` replaced by `new`, as an iteration variable and in
accesses alike. -/
def Expr.subst (old new : DimId) : Expr → Expr
  | .int v => .int v
  | .float v => .float v
  | .symbol n => .symbol n
  | .dim d => .dim (d.subst old new)
  | .access t is => .access t (Index.substAll old new is)
  | .element t es => .element t (Expr.substAll old new es)
  | .neg e => .neg (e.subst old new)
  | .binary o a b => .binary o (a.subst old new) (b.subst old new)
  | .compare o a b => .compare o (a.subst old new) (b.subst old new)
  | .and es => .and (Expr.substAll old new es)
  | .call f es => .call f (Expr.substAll old new es)

def Index.subst (old new : DimId) : Index → Index
  | .fixed d k => .fixed (d.subst old new) k
  | .symbolic d e => .symbolic (d.subst old new) (e.subst old new)

def Expr.substAll (old new : DimId) : List Expr → List Expr
  | [] => []
  | e :: es => e.subst old new :: Expr.substAll old new es

def Index.substAll (old new : DimId) : List Index → List Index
  | [] => []
  | i :: is => i.subst old new :: Index.substAll old new is

end

theorem Expr.substAll_eq_map (old new : DimId) (es : List Expr) :
    Expr.substAll old new es = es.map (Expr.subst old new) := by
  induction es with
  | nil => rfl
  | cons e es ih => rw [Expr.substAll, ih, List.map_cons]

theorem Index.substAll_eq_map (old new : DimId) (is : List Index) :
    Index.substAll old new is = is.map (Index.subst old new) := by
  induction is with
  | nil => rfl
  | cons i is ih => rw [Index.substAll, ih, List.map_cons]

theorem Index.dim_subst (old new : DimId) (i : Index) :
    (i.subst old new).dim = i.dim.subst old new := by
  cases i <;> rfl

theorem Index.map_dim_substAll (old new : DimId) (is : List Index) :
    (Index.substAll old new is).map Index.dim = (is.map Index.dim).map fun d => d.subst old new := by
  rw [Index.substAll_eq_map, List.map_map, List.map_map]
  exact List.map_congr_left fun i _ => Index.dim_subst old new i

/-- The access with dimension `old` replaced by `new`, inside displacements too. -/
def Access.subst (old new : DimId) (a : Access) : Access :=
  ⟨a.tensor, Index.substAll old new a.indices⟩

end LoopNest
