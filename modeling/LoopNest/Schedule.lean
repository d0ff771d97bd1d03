import LoopNest.Dependence.Analysis
import LoopNest.Tree.Build
/-!
# Scheduling a program

A program's equations are lowered, their dependences found, clusters made and guards placed; the
tree is built from all that. The same program under the same options always gives the same tree.
-/

namespace LoopNest

/-- The stride of the options advances. -/
def Options.check (options : Options) : Except ScheduleError Unit :=
  if 0 < options.defaultFactor then .ok () else .error (.badDefaultFactor options.defaultFactor)

namespace Program

/-- The clusters of a program, in order of execution, without a look at the options' stride. -/
def clusters (p : Program) (options : Options) : Logged AnalysisError (List Cluster) := do
  let es ← p.lower
  let g ← Lowered.analyze p.dims es
  Logged.noteAll (Cluster.buildNotes p.dims g options es)
  return Cluster.build p.dims g options es

/-- What the tree of a program is built from. -/
def plan (p : Program) (options : Options) : Logged ScheduleError Plan := do
  Logged.ofExcept options.check
  let es ← p.lower.mapError .analysis
  let g ← (Lowered.analyze p.dims es).mapError .analysis
  Logged.noteAll (Cluster.buildNotes p.dims g options es)
  let clusters := Cluster.build p.dims g options es
  let guards ← Logged.ofExcept (clusters.mapM (Guard.ofCluster p))
  return ⟨p.dims, es, g, clusters, guards, options⟩

/-- The program as a tree of loops and guards. -/
def schedule (p : Program) (options : Options) : Logged ScheduleError ScheduleTree := do
  let plan ← p.plan options
  let tree := plan.tree
  Logged.noteAll plan.treeNotes
  Logged.note (.scheduled plan.equations.length plan.clusters.length tree.paths.length)
  return tree

end Program

end LoopNest
