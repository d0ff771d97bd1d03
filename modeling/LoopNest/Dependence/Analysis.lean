import LoopNest.Lowered
import LoopNest.Dependence.Edge
import LoopNest.Dependence.Distance
/-!
# Dependence analysis

Any two accesses to one tensor of which at least one is a write are compared along the loops
their equations share, outermost first, and the first loop along which they are apart, or may be,
carries the dependence. An equation depends on itself from its write to its reads. Between two
equations the one declared first is the source. Time only moves forward, so a read of a later
point of time than was written is illegal.
-/

namespace LoopNest

/-- Two accesses to one tensor, by equations of which the first must come first. -/
structure AccessPair where
  source : Nat
  sink : Nat
  kind : DependenceKind
  /-- The access of the source. -/
  first : Access
  /-- The access of the sink. -/
  second : Access

namespace AccessPair

/-- The distance says that a read is ahead of the write in time. -/
def readsFuture : DependenceKind → Int → Bool
  | .flow, d => d < 0
  | .anti, d => 0 < d
  | .output, _ => false

/-- The equations that write and that read, for a pair of a write and a read. -/
def writerAndReader (p : AccessPair) : Nat × Nat :=
  match p.kind with
  | .anti => (p.sink, p.source)
  | _ => (p.source, p.sink)

/-- The carrier of a dependence over a distance other than zero. -/
def carrierAt (t : DimTable) (p : AccessPair) (root : DimId) (d : Int) :
    Except AnalysisError Carrier :=
  if t.isTimeLike root then
    if readsFuture p.kind d then
      let ends := p.writerAndReader
      .error (.illegalDependence p.first.tensor (t.name root) ends.1 ends.2 .readsFuture)
    else .ok (.carried root .forward)
  else .ok (.carried root (.ofDistance d))

/-- What carries the dependence along `roots`, outermost first. Along a root that neither access
indexes the distance is `unindexed`. -/
def carrier (t : DimTable) (unindexed : Option Int) (p : AccessPair) :
    List DimId → Except AnalysisError Carrier
  | [] => .ok .independent
  | root :: inner =>
    match p.first.distance? t unindexed root p.second with
    | none => .ok (.unknown root)
    | some d => if d = 0 then carrier t unindexed p inner else carrierAt t p root d

def toEdge (p : AccessPair) (c : Carrier) : Edge :=
  ⟨p.source, p.sink, p.first.tensor, p.kind, c⟩

end AccessPair

namespace Lowered

/-! ## An equation and itself -/

/-- The write of an equation and a read of the same tensor. -/
def selfPair (e : Lowered) (read : Access) : AccessPair :=
  ⟨e.index, e.index, .flow, e.write, read⟩

/-- The carriers of an equation's dependence on itself, with that of one more read. Of two that
run along one root neither may oppose the other. -/
def addSelfCarrier (t : DimTable) (e : Lowered) (done : List Carrier) (read : Access) :
    Except AnalysisError (List Carrier) := do
  let c ← (e.selfPair read).carrier t none (e.roots t)
  match c.root? with
  | some root =>
    if done.any c.opposes then
      throw (.illegalDependence e.write.tensor (t.name root) e.index e.index .oppositeDirections)
    else return done ++ [c]
  | none => return done

/-- The outermost loop along which all iterations write one element. -/
def rewriteRoot? (t : DimTable) (e : Lowered) : Option DimId :=
  (e.roots t).find? fun r => (e.write.along? t r).isNone

/-- The dependence of a write on itself along a loop it does not index. -/
def rewriteEdges (t : DimTable) (e : Lowered) : List Edge :=
  match e.rewriteRoot? t with
  | some root => [⟨e.index, e.index, e.write.tensor, .output, .unknown root⟩]
  | none => []

/-- The reads of a tensor. -/
def readsOf (t : DimTable) (e : Lowered) (tensor : String) : List Access :=
  (e.reads t).filter fun a => a.tensor == tensor

/-- The dependences of an equation on itself. -/
def selfEdges (t : DimTable) (e : Lowered) : Except AnalysisError (List Edge) := do
  let carriers ← (e.readsOf t e.write.tensor).foldlM (addSelfCarrier t e) []
  return (carriers.map fun c => ⟨e.index, e.index, e.write.tensor, .flow, c⟩) ++ e.rewriteEdges t

/-! ## Two equations -/

/-- Roots of the loops that two equations share, in the order of the first. -/
def commonRoots (t : DimTable) (a b : Lowered) : List DimId :=
  (a.roots t).filter fun r => (b.roots t).contains r

/-- The accesses of two equations that may conflict, the first declared equation first. -/
def crossPairs (t : DimTable) (a b : Lowered) : List AccessPair :=
  let pair := AccessPair.mk a.index b.index
  (b.readsOf t a.write.tensor).map (pair .flow a.write) ++
    (a.readsOf t b.write.tensor).map (fun read => pair .anti read b.write) ++
    if a.write.tensor == b.write.tensor then [pair .output a.write b.write] else []

/-- The dependences of an equation on one declared before it. -/
def crossEdges (t : DimTable) (a b : Lowered) : Except AnalysisError (List Edge) :=
  (crossPairs t a b).mapM fun p => (p.carrier t (some 0) (commonRoots t a b)).map p.toEdge

/-- The places of a list taken two at a time, in order. -/
def orderedPairs {α : Type} : List α → List (α × α)
  | [] => []
  | a :: rest => rest.map (a, ·) ++ orderedPairs rest

/-! ## Buffers -/

/-- A known displacement through the index of a circular buffer. -/
structure BufferUse where
  tensor : String
  dim : DimId
  shift : Int

def bufferUse? (t : DimTable) (tensor : String) (i : Index) : Option BufferUse :=
  match i with
  | .fixed d k => if (t.get d).isStepping then some ⟨tensor, d, k⟩ else none
  | .symbolic _ _ => none

/-- Every known displacement through a buffer index, with the tensor it belongs to. -/
def bufferUses (t : DimTable) (es : List Lowered) : List BufferUse :=
  es.flatMap fun e => (e.accesses t).flatMap fun a => a.indices.filterMap (bufferUse? t a.tensor)

/-- The number of time levels between the least and the greatest of some displacements, both
included, or the greatest word if there are more. -/
def levels (shifts : List Int) : Int :=
  let lo := shifts.min?.getD 0
  let hi := shifts.max?.getD 0
  Word.clamp (Word.clamp (hi - lo) + 1)

/-- A buffer has as many slots as its tensor has time levels in use. -/
def checkBuffer (t : DimTable) (uses : List BufferUse) (tensor : String) (d : DimId) :
    Except AnalysisError Unit :=
  let own := uses.filter fun u => u.tensor == tensor && u.dim == d
  let needed := levels (own.map BufferUse.shift)
  let modulo := ((t.get d).modulo?).getD 1
  if needed > modulo then .error (.bufferTooSmall tensor (t.name d) needed modulo) else .ok ()

/-- Every buffer is large enough; tensors are checked in order of their names. -/
def checkBuffers (t : DimTable) (es : List Lowered) : Except AnalysisError Unit :=
  let uses := bufferUses t es
  (SortedSet.ofList (uses.map BufferUse.tensor)).forM fun tensor =>
    let dims := (uses.filter fun u => u.tensor == tensor).map BufferUse.dim
    (SortedSet.ofList dims).forM fun d => checkBuffer t uses tensor d

/-! ## All equations -/

/-- The dependences among equations. -/
def graph (t : DimTable) (es : List Lowered) : Except AnalysisError DependenceGraph := do
  checkBuffers t es
  let own ← es.mapM (selfEdges t)
  let cross ← (orderedPairs es).mapM fun pair => crossEdges t pair.1 pair.2
  return ⟨(own.flatten ++ cross.flatten).eraseDups⟩

/-- The dependences among equations, noted. -/
def analyze (t : DimTable) (es : List Lowered) : Logged AnalysisError DependenceGraph := do
  let g ← Logged.ofExcept (graph t es)
  Logged.note (.analyzed es.length g.edges.length)
  return g

end Lowered

end LoopNest
