import LoopNest.Cluster
import LoopNest.Nest
/-!
# Guards

A cluster under conditions has one predicate per depth of its nest: the conjunction of all
conditions that can first be decided there. A stride is decided inside the loop over its root; a
predicate is decided inside every loop it mentions.
-/

namespace LoopNest

/-- What can go wrong with a schedule. -/
inductive ScheduleError where
  | analysis (error : AnalysisError)
  /-- A predicate mentions something that has no value where it is decided. -/
  | unresolvedGuard (dim symbol : String)
  /-- The stride of the options does not advance. -/
  | badDefaultFactor (factor : Int)
deriving DecidableEq, Repr

namespace ScheduleError

def message : ScheduleError → String
  | analysis error => error.message
  | unresolvedGuard dim symbol => s!"guard of '{dim}' references unresolved '{symbol}'"
  | badDefaultFactor factor =>
    s!"invalid options: default stride factor must be positive, got {factor}"

end ScheduleError

/-- A predicate decided inside the first `level` loops of a nest. -/
structure Guard where
  level : Nat
  predicate : Expr
  /-- The conditional dimensions that the predicate stands for. -/
  conditions : List DimId
deriving Inhabited

namespace Guard

/-- Names that have a value in every nest: declared scalars and parameters. -/
def knownSymbols (p : Program) : List String :=
  p.scalars ++ p.dims.ids.flatMap fun d => (p.dims.parameters d).map Parameter.name

/-- The first thing in a predicate that has no value in a nest: a scalar, else a tensor, else a
dimension without a loop. -/
def unresolved? (p : Program) (n : Nest) (predicate : Expr) : Option String :=
  (predicate.symbols.find? fun s => !(knownSymbols p).contains s) <|>
    ((predicate.accesses.map Access.tensor).find? fun t => !p.tensors.contains t) <|>
    (predicate.dims.find? fun d => (n.depthOf? d).isNone).map p.dims.name

/-- The depth at which every one of some dimensions has a value, at least `least`. -/
def depthOfAll (n : Nest) (least : Nat) (ds : List DimId) : Nat :=
  (ds.filterMap n.depthOf?).foldl max least

/-- The point lies on the stride of a conditional dimension over `parent`. -/
def onStride (n : Nest) (parent : DimId) (factor : String) : Expr :=
  .compare .eq (Expr.fold .mod (n.displaced parent (.int 0)) (.symbol factor)) (.int 0)

/-- The predicate of one condition of a nest. -/
def ofCondition (p : Program) (n : Nest) (c : DimId) : Except ScheduleError Guard :=
  let d := p.dims.get c
  match n.depthOf? c with
  | none => .error (.unresolvedGuard d.name (p.dims.name (p.dims.root c)))
  | some depth =>
    match d.kind with
    | .conditional parent (.stride _) => .ok ⟨depth, onStride n parent d.factorName, [c]⟩
    | .conditional _ (.predicate e) =>
      match unresolved? p n e with
      | some symbol => .error (.unresolvedGuard d.name symbol)
      | none => .ok ⟨depthOfAll n depth e.dims, n.expr e, [c]⟩
    | _ => .ok ⟨depth, .and [], [c]⟩

/-- The conjunction of guards of one level. -/
def conjunction (level : Nat) (gs : List Guard) : Guard :=
  ⟨level, Expr.all (gs.map Guard.predicate), gs.flatMap Guard.conditions⟩

/-- Guards with those of one level made one, outermost first. -/
def combine (gs : List Guard) : List Guard :=
  (SortedSet.ofList (gs.map Guard.level)).map fun level =>
    conjunction level (gs.filter fun g => g.level == level)

/-- The guards of a cluster, outermost first. -/
def ofCluster (p : Program) (c : Cluster) : Except ScheduleError (List Guard) := do
  let gs ← c.signature.conditions.mapM (ofCondition p ⟨p.dims, c.signature.loops⟩)
  return combine gs

end Guard

end LoopNest
