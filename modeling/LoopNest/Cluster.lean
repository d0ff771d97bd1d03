import LoopNest.Level
import LoopNest.Options
/-!
# Clusters

A cluster is a run of equations with one signature. Equations are first put in an order that
respects every edge between two of them; where several may come next, one that continues the
last signature is preferred, then one under the same conditions, then the one declared first.
Neighbours of equal signature are then merged, unless a loop would have to run both ways or a
distance between them in space is not known.
-/

namespace LoopNest

/-- Equations that share one iteration space, in order of execution. -/
structure Cluster where
  equations : List Nat
  signature : Signature
deriving DecidableEq, Repr, Inhabited

namespace Cluster

/-! ## The order of equations -/

/-- Every equation that must come before `i` has been placed. -/
def isReady (g : DependenceGraph) (placed : List Nat) (i : Nat) : Bool :=
  g.edges.all fun e => e.sink != i || e.isSelf || placed.contains e.source

/-- The signature is the last one placed. -/
def continues (last : Option Signature) (s : Signature) : Bool := last == some s

/-- The conditions are those of the last signature placed, and there are some. -/
def sameConditions (last : Option Signature) (s : Signature) : Bool :=
  match last with
  | some l => !l.conditions.isEmpty && l.conditions == s.conditions
  | none => false

/-- The equation to place next among those that may come next. -/
def prefer (last : Option Signature) (ready : List Lowered) : Option Lowered :=
  (ready.find? fun e => continues last e.signature) <|>
    (ready.find? fun e => sameConditions last e.signature) <|> ready.head?

/-- The equation to place next, if there is one that may be. -/
def next? (g : DependenceGraph) (waiting : List Lowered) (placed : List Lowered) :
    Option Lowered :=
  let indices := placed.map Lowered.index
  prefer (placed.getLast?.map Lowered.signature)
    (waiting.filter fun e => isReady g indices e.index)

/-- Places up to `n` waiting equations after those placed. If none may come next, which a graph
without cycles rules out, the rest follows in order of declaration. -/
def arrange (g : DependenceGraph) : Nat → List Lowered → List Lowered → List Lowered
  | 0, _, placed => placed
  | n + 1, waiting, placed =>
    match next? g waiting placed with
    | some e => arrange g n (waiting.filter fun w => w.index != e.index) (placed ++ [e])
    | none => placed ++ waiting

/-- The equations in an order that respects the edges between them. -/
def order (g : DependenceGraph) (es : List Lowered) : List Lowered := arrange g es.length es []

/-! ## Merging -/

/-- What keeps an equation out of a cluster along one loop, if anything. -/
def obstacleAlong? (t : DimTable) (g : DependenceGraph) (c : Cluster) (next : Nat)
    (loop : DimId) : Option Note :=
  let root := t.root loop
  if t.isTimeLike root then none
  else if (g.between c.equations [next]).any fun e => e.carrier == .unknown root then
    some (.unknownDistance next (t.name root) c.equations)
  else if !(Demand.among g (c.equations ++ [next]) root).isSatisfiable then
    some (.inconsistentDirection (t.name root) (c.equations.headD 0) next)
  else none

/-- What keeps an equation out of a cluster, if anything. -/
def obstacle? (t : DimTable) (g : DependenceGraph) (c : Cluster) (next : Nat) : Option Note :=
  c.signature.loops.findSome? (obstacleAlong? t g c next)

/-- The cluster of one equation. -/
def single (e : Lowered) : Cluster := ⟨[e.index], e.signature⟩

/-- Clusters so far, the last one apart, and notes. -/
structure Grouping where
  done : List Cluster
  last : Option Cluster
  notes : List Note

namespace Grouping

def clusters (g : Grouping) : List Cluster := g.done ++ g.last.toList

/-- The next equation joins the last cluster or begins a new one. -/
def add (t : DimTable) (g : DependenceGraph) (s : Grouping) (e : Lowered) : Grouping :=
  match s.last with
  | none => ⟨s.done, some (single e), s.notes⟩
  | some c =>
    if c.signature = e.signature then
      match obstacle? t g c e.index with
      | none => ⟨s.done, some ⟨c.equations ++ [e.index], c.signature⟩, s.notes⟩
      | some note => ⟨s.done ++ [c], some (single e), s.notes ++ [note]⟩
    else ⟨s.done ++ [c], some (single e), s.notes⟩

end Grouping

/-- Equations grouped in the order given. -/
def group (t : DimTable) (g : DependenceGraph) (es : List Lowered) : Grouping :=
  es.foldl (Grouping.add t g) ⟨[], none, []⟩

/-- Clusters in order of execution. -/
def build (t : DimTable) (g : DependenceGraph) (options : Options) (es : List Lowered) :
    List Cluster :=
  if options.fusion then (group t g (order g es)).clusters else es.map single

/-- What building clusters notes. -/
def buildNotes (t : DimTable) (g : DependenceGraph) (options : Options) (es : List Lowered) :
    List Note :=
  if options.fusion then
    let s := group t g (order g es)
    s.notes ++ [.clustered es.length s.clusters.length]
  else []

end Cluster

end LoopNest
