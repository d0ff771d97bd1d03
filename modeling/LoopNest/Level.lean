import LoopNest.Lowered
import LoopNest.Dependence.Edge
/-!
# Loop levels

The edges that a loop carries demand directions of it. From those demands, and from what is known
of the level besides, follow the direction in which the loop runs and what it may be used for.
-/

namespace LoopNest

/-- Directions that carried edges demand of a loop. -/
structure Demand where
  forward : Bool
  backward : Bool
  /-- A carried distance is not known; it counts as forward. -/
  unknown : Bool
deriving DecidableEq, Repr, Inhabited

namespace Demand

/-- Nothing demanded. -/
def none : Demand := ⟨false, false, false⟩

def ofCarrier (c : Carrier) : Demand :=
  ⟨c.direction? == some .forward, c.direction? == some .backward, c.isUnknown⟩

/-- Both demands together. -/
def merge (a b : Demand) : Demand :=
  ⟨a.forward || b.forward, a.backward || b.backward, a.unknown || b.unknown⟩

/-- What edges demand of a loop over `root`. -/
def ofEdges (root : DimId) (edges : List Edge) : Demand :=
  (edges.filter fun e => e.carrier.root? == some root).foldl
    (fun demand e => demand.merge (ofCarrier e.carrier)) none

/-- What the edges among `members` demand of a loop over `root`. -/
def among (g : DependenceGraph) (members : List Nat) (root : DimId) : Demand :=
  ofEdges root (g.within members)

def isMade (d : Demand) : Bool := d.forward || d.backward

/-- Some direction satisfies the demand. -/
def isSatisfiable (d : Demand) : Bool := !(d.forward && d.backward)

/-- The one direction demanded, if there is one. -/
def direction? (d : Demand) : Option Direction :=
  match d.forward, d.backward with
  | true, false => some .forward
  | false, true => some .backward
  | _, _ => Option.none

end Demand

/-- What a loop is good for. -/
structure Properties where
  /-- No dependence is carried. -/
  parallel : Bool
  /-- Iterations must run in the loop's direction. -/
  sequential : Bool
  /-- Every displacement along the loop is known. -/
  affine : Bool
  /-- Parallel, affine and innermost. -/
  vectorizable : Bool
deriving DecidableEq, Repr, Inhabited

namespace Properties

def none : Properties := ⟨false, false, false, false⟩

def isEmpty (p : Properties) : Bool := p == none

/-- The names of the properties that hold. -/
def names (p : Properties) : List String :=
  [(p.parallel, "parallel"), (p.sequential, "sequential"), (p.affine, "affine"),
    (p.vectorizable, "vector")].filterMap fun (holds, name) => if holds then some name else .none

def text (p : Properties) : String := ",".intercalate p.names

end Properties

/-- What is known of a loop besides the edges it carries. -/
structure Level where
  /-- Every displacement along the loop is known. -/
  affine : Bool
  /-- No loop is nested inside. -/
  innermost : Bool
  timeLike : Bool
deriving DecidableEq, Repr, Inhabited

/-- The direction and the properties of a loop. Time runs forward whatever is demanded. Demands
that no direction satisfies are up to the caller. -/
def Level.judge (level : Level) (demand : Demand) (vectorize : Bool) : Direction × Properties :=
  if level.timeLike then (.forward, ⟨false, true, level.affine, false⟩)
  else if demand.isMade then
    (demand.direction?.getD .forward, ⟨false, true, level.affine, false⟩)
  else
    (.forward, ⟨true, false, level.affine, vectorize && level.innermost && level.affine⟩)

/-- Every displacement along `root` in equations is known. -/
def Lowered.areAffine (t : DimTable) (es : List Lowered) (root : DimId) : Bool :=
  es.all fun e => (e.accesses t).all fun a =>
    (a.indices.filter fun i => t.root i.dim == root).all fun i => i.fixed?.isSome

end LoopNest
