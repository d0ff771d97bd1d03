import LoopNest.Guard
/-!
# Schedule trees

A schedule is a tree of loops and guards with statements at its leaves; the order of siblings is
the order of execution. `Node.placements` lists the statements in that order, each with the loops
and guards around it. The other views read off loops, guards and paths.
-/

namespace LoopNest

/-- A loop without its body. -/
structure Loop where
  dim : DimId
  bounds : Interval
  direction : Direction
  properties : Properties
  /-- Clusters with statements in the body. -/
  clusters : List Nat
  /-- What the edges among those clusters demand of the loop. -/
  demand : Demand
deriving Inhabited

/-- An equation in terms of loop variables. -/
structure Statement where
  equation : Nat
  cluster : Nat
  lhs : Expr
  rhs : Expr
deriving Inhabited

inductive Node where
  | loop (info : Loop) (body : List Node)
  /-- A region entered where the predicate holds. -/
  | guard (predicate : Expr) (conditions : List DimId) (body : List Node)
  | statement (s : Statement)
deriving Inhabited

/-- A statement with what is around it, outermost first. -/
structure Placement where
  loops : List Loop
  guards : List Expr
  statement : Statement
deriving Inhabited

namespace Placement

/-- The placement inside one more loop. -/
def inLoop (l : Loop) (p : Placement) : Placement := ⟨l :: p.loops, p.guards, p.statement⟩

/-- The placement inside one more guard. -/
def inGuard (e : Expr) (p : Placement) : Placement := ⟨p.loops, e :: p.guards, p.statement⟩

end Placement

/-- A guard of a tree without its body: the loop paths inside take its place. -/
structure Gate where
  predicate : Expr
  conditions : List DimId
  /-- The loops on each path inside, outermost first. -/
  paths : List (List Loop)
deriving Inhabited

namespace Node

mutual

/-- The statements of a node in order of execution, each with what is around it. -/
def placements : Node → List Placement
  | .loop l body => (placementsOf body).map (Placement.inLoop l)
  | .guard e _ body => (placementsOf body).map (Placement.inGuard e)
  | .statement s => [⟨[], [], s⟩]

def placementsOf : List Node → List Placement
  | [] => []
  | n :: ns => n.placements ++ placementsOf ns

end

mutual

/-- The loops of a node, each before those inside it. -/
def loops : Node → List Loop
  | .loop l body => l :: loopsOf body
  | .guard _ _ body => loopsOf body
  | .statement _ => []

def loopsOf : List Node → List Loop
  | [] => []
  | n :: ns => n.loops ++ loopsOf ns

end

/-- A loop around paths, or alone if there are none inside. -/
def extendPaths (l : Loop) : List (List Loop) → List (List Loop)
  | [] => [[l]]
  | paths => paths.map (l :: ·)

mutual

/-- The paths of loops from the outermost to an innermost; guards do not count. -/
def paths : Node → List (List Loop)
  | .loop l body => extendPaths l (pathsOf body)
  | .guard _ _ body => pathsOf body
  | .statement _ => []

def pathsOf : List Node → List (List Loop)
  | [] => []
  | n :: ns => n.paths ++ pathsOf ns

end

mutual

/-- The guards of a node, each before those inside it. -/
def gates : Node → List Gate
  | .loop _ body => gatesOf body
  | .guard e conditions body => ⟨e, conditions, pathsOf body⟩ :: gatesOf body
  | .statement _ => []

def gatesOf : List Node → List Gate
  | [] => []
  | n :: ns => n.gates ++ gatesOf ns

end

/-! Each view of several nodes puts those of the single nodes one after another. -/

theorem placementsOf_eq_flatMap (ns : List Node) :
    placementsOf ns = ns.flatMap placements := by
  induction ns with
  | nil => rfl
  | cons n ns ih => rw [placementsOf, ih, List.flatMap_cons]

theorem loopsOf_eq_flatMap (ns : List Node) : loopsOf ns = ns.flatMap loops := by
  induction ns with
  | nil => rfl
  | cons n ns ih => rw [loopsOf, ih, List.flatMap_cons]

theorem pathsOf_eq_flatMap (ns : List Node) : pathsOf ns = ns.flatMap paths := by
  induction ns with
  | nil => rfl
  | cons n ns ih => rw [pathsOf, ih, List.flatMap_cons]

theorem gatesOf_eq_flatMap (ns : List Node) : gatesOf ns = ns.flatMap gates := by
  induction ns with
  | nil => rfl
  | cons n ns ih => rw [gatesOf, ih, List.flatMap_cons]

/-- The statements of nodes in order of execution. -/
def statementsOf (ns : List Node) : List Statement := (placementsOf ns).map Placement.statement

end Node

/-- A cluster as scheduled. -/
structure ClusterSummary where
  equations : List Nat
  signature : Signature
  /-- The loops around the cluster's statements. -/
  space : List Loop
  /-- The predicates around the cluster's statements, outermost first. -/
  guards : List Expr
deriving Inhabited

/-- A scheduled program. -/
structure ScheduleTree where
  roots : List Node
  /-- Values that a run may bind, in order of dimensions. -/
  parameters : List Parameter
  /-- Clusters in order of execution. -/
  clusters : List ClusterSummary
deriving Inhabited

namespace ScheduleTree

/-- Every path of loops from the outermost to an innermost. -/
def paths (tree : ScheduleTree) : List (List Loop) := Node.pathsOf tree.roots

def loops (tree : ScheduleTree) : List Loop := Node.loopsOf tree.roots

def gates (tree : ScheduleTree) : List Gate := Node.gatesOf tree.roots

def placements (tree : ScheduleTree) : List Placement := Node.placementsOf tree.roots

/-- Statements in order of execution. -/
def statements (tree : ScheduleTree) : List Statement := Node.statementsOf tree.roots

end ScheduleTree

end LoopNest
