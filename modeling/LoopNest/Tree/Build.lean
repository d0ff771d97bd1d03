import LoopNest.Tree.Basic
/-!
# Building the tree

Clusters enter the tree one by one in order of execution, each along its own path of guards and
loops. A step of the path joins the last node at its place, where that is the same guard or a
loop over the same dimension whose dependences allow it; otherwise it opens a new sibling. Only
the last child is ever joined, so the order of siblings stays the order of execution.
-/

namespace LoopNest

/-- What a tree is built from. -/
structure Plan where
  dims : DimTable
  equations : List Lowered
  graph : DependenceGraph
  clusters : List Cluster
  /-- The guards of each cluster. -/
  guards : List (List Guard)
  options : Options

namespace Plan

def cluster (p : Plan) (c : Nat) : Cluster := p.clusters.getD c default

def guardsOf (p : Plan) (c : Nat) : List Guard := p.guards.getD c []

/-- The equations of some clusters. -/
def equationsOf (p : Plan) (cs : List Nat) : List Nat := cs.flatMap fun c => (p.cluster c).equations

/-! ## Paths -/

/-- A step on the way from the top of the tree to a cluster's statements. -/
inductive Step where
  | loop (dim : DimId)
  | guard (g : Guard)

/-- The guards of a level, as steps. -/
def guardSteps (gs : List Guard) (level : Nat) : List Step :=
  (gs.filter fun g => g.level == level).map .guard

/-- The steps from inside the first `level` loops on. -/
def stepsFrom (gs : List Guard) : Nat → List DimId → List Step
  | level, [] => guardSteps gs level
  | level, l :: ls => guardSteps gs level ++ .loop l :: stepsFrom gs (level + 1) ls

/-- The way to the statements of a cluster. -/
def steps (p : Plan) (c : Nat) : List Step :=
  stepsFrom (p.guardsOf c) 0 (p.cluster c).signature.loops

/-! ## Sharing a loop -/

/-- The demand of a loop after a cluster has joined it, or why the cluster may not. -/
def joinLoop (p : Plan) (l : Loop) (c : Nat) : Except Note Demand :=
  let root := p.dims.root l.dim
  let own := (p.cluster c).equations
  let together := l.demand.merge (Demand.among p.graph own root)
  if p.dims.isTimeLike root then .ok together
  else
    let between := (p.graph.between (p.equationsOf l.clusters) own).filter fun e =>
      e.carrier.root? == some root
    if between.any fun e => e.carrier.isUnknown then
      .error (.loopUnknownDistance c (p.dims.name root))
    else
      let merged := together.merge (Demand.ofEdges root between)
      if merged.isSatisfiable then .ok merged
      else .error (.loopOppositeDirections c (p.dims.name root))

/-- A loop of one cluster, before it is known what the loop is good for. -/
def freshLoop (p : Plan) (c : Nat) (dim : DimId) : Loop where
  dim := dim
  bounds := p.dims.interval dim
  direction := .forward
  properties := .none
  clusters := [c]
  demand := Demand.among p.graph (p.cluster c).equations (p.dims.root dim)

/-- The statements of a cluster. -/
def statements (p : Plan) (c : Nat) : List Node :=
  let cluster := p.cluster c
  let nest : Nest := ⟨p.dims, cluster.signature.loops⟩
  cluster.equations.map fun i =>
    let eq := (p.equations.getD i default).equation
    .statement ⟨i, c, nest.access eq.lhs, nest.expr eq.rhs⟩

/-! ## Entering the tree -/

/-- Where a step leads: into the last node, or into a new one after it. -/
inductive Entry where
  /-- The last node's body, and the node around what becomes of it. -/
  | join (body : List Node) (around : List Node → Node)
  /-- The node around a new body, and what kept the step out of the last node. -/
  | new (around : List Node → Node) (notes : List Note)

/-- A loop over `dim` after the nodes so far. -/
def enterLoop (p : Plan) (c : Nat) (dim : DimId) (last : Option Node) : Entry :=
  let fresh := Node.loop (p.freshLoop c dim)
  match last with
  | some (.loop l body) =>
    if p.options.fusion && l.dim == dim then
      match p.joinLoop l c with
      | .ok demand =>
        .join body (.loop ⟨l.dim, l.bounds, l.direction, l.properties, l.clusters ++ [c], demand⟩)
      | .error note => .new fresh [note]
    else .new fresh []
  | _ => .new fresh []

/-- Conditions of a guard together with those of an equal one. -/
def addConditions (old new : List DimId) : List DimId :=
  new.foldl (fun ds d => if ds.contains d then ds else ds ++ [d]) old

/-- A guard after the nodes so far. -/
def enterGuard (p : Plan) (g : Guard) (last : Option Node) : Entry :=
  let fresh := Node.guard g.predicate g.conditions
  match last with
  | some (.guard e conditions body) =>
    if p.options.fusion && e == g.predicate then
      .join body (.guard e (addConditions conditions g.conditions))
    else .new fresh []
  | _ => .new fresh []

def enter (p : Plan) (c : Nat) (last : Option Node) : Step → Entry
  | .loop dim => p.enterLoop c dim last
  | .guard g => p.enterGuard g last

/-- The nodes after a cluster has entered along a way, and notes. -/
def insert (p : Plan) (c : Nat) : List Step → List Node → List Node × List Note
  | [], nodes => (nodes ++ p.statements c, [])
  | step :: rest, nodes =>
    match p.enter c nodes.getLast? step with
    | .join body around =>
      let (body, notes) := p.insert c rest body
      (nodes.dropLast ++ [around body], notes)
    | .new around before =>
      let (body, notes) := p.insert c rest []
      (nodes ++ [around body], before ++ notes)

/-- The tree after the clusters from `c` on have entered it, and notes. -/
def insertAll (p : Plan) (nodes : List Node) (cs : List Nat) : List Node × List Note :=
  cs.foldl (fun (nodes, notes) c =>
    let (nodes, more) := p.insert c (p.steps c) nodes
    (nodes, notes ++ more)) (nodes, [])

/-! ## Directions and properties -/

/-- What is known of a loop with a body. -/
def level (p : Plan) (l : Loop) (body : List Node) : Level where
  affine := Lowered.areAffine p.dims
    ((p.equationsOf l.clusters).map fun i => p.equations.getD i default) (p.dims.root l.dim)
  innermost := (Node.loopsOf body).isEmpty
  timeLike := p.dims.isTimeLike (p.dims.root l.dim)

/-- The loop with its direction and properties. -/
def settleLoop (p : Plan) (l : Loop) (body : List Node) : Loop :=
  let (direction, properties) := (p.level l body).judge l.demand p.options.vectorize
  ⟨l.dim, l.bounds, direction, properties, l.clusters, l.demand⟩

mutual

/-- The node with direction and properties of every loop. -/
def settle (p : Plan) : Node → Node
  | .loop l body => .loop (p.settleLoop l body) (settleAll p body)
  | .guard e conditions body => .guard e conditions (settleAll p body)
  | .statement s => .statement s

def settleAll (p : Plan) : List Node → List Node
  | [] => []
  | n :: ns => settle p n :: settleAll p ns

end

theorem settleAll_eq_map (p : Plan) (ns : List Node) : p.settleAll ns = ns.map p.settle := by
  induction ns with
  | nil => rfl
  | cons n ns ih => rw [settleAll, ih, List.map_cons]

/-- Parallel loops that only their displacements keep from vectors. -/
def missedVector (p : Plan) (l : Loop) (body : List Node) : List Note :=
  let level := p.level l body
  let (_, properties) := level.judge l.demand p.options.vectorize
  if p.options.vectorize && level.innermost && properties.parallel && !level.affine then
    [.notVectorized (p.dims.name l.dim)]
  else []

mutual

/-- What settling a node notes. -/
def settleNotes (p : Plan) : Node → List Note
  | .loop l body => settleAllNotes p body ++ p.missedVector l body
  | .guard _ _ body => settleAllNotes p body
  | .statement _ => []

def settleAllNotes (p : Plan) : List Node → List Note
  | [] => []
  | n :: ns => settleNotes p n ++ settleAllNotes p ns

end

/-! ## The whole tree -/

/-- A parameter with the stride of the options where it has no value of its own. -/
def withStride (options : Options) (q : Parameter) : Parameter :=
  match q.kind with
  | .factor => ⟨q.name, q.kind, q.dim, some (q.default?.getD options.defaultFactor)⟩
  | _ => q

/-- The parameters of all dimensions. -/
def parameters (t : DimTable) (options : Options) : List Parameter :=
  (t.ids.flatMap t.parameters).map (withStride options)

/-- The loops around the first statement of a cluster. -/
def spaceOf (placements : List Placement) (c : Nat) : List Loop :=
  ((placements.find? fun q => q.statement.cluster == c).map Placement.loops).getD []

def summary (p : Plan) (placements : List Placement) (c : Nat) : ClusterSummary :=
  let cluster := p.cluster c
  ⟨cluster.equations, cluster.signature, spaceOf placements c,
    (p.guardsOf c).map Guard.predicate⟩

/-- Numbers of all clusters. -/
def clusterIds (p : Plan) : List Nat := List.range p.clusters.length

/-- The tree before directions are settled, and notes. -/
def layout (p : Plan) : List Node × List Note := p.insertAll [] p.clusterIds

/-- The schedule of a plan. -/
def tree (p : Plan) : ScheduleTree :=
  let roots := p.settleAll p.layout.1
  ⟨roots, parameters p.dims p.options, p.clusterIds.map (p.summary (Node.placementsOf roots))⟩

/-- What building the schedule notes. -/
def treeNotes (p : Plan) : List Note := p.layout.2 ++ p.settleAllNotes p.layout.1

end Plan

end LoopNest
