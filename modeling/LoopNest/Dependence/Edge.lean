import LoopNest.DimTable.Basic
/-!
# Dependence edges

An edge says that one equation must come before another, or before itself in an earlier
iteration, and which loop keeps the two apart.
-/

namespace LoopNest

/-- The order in which a loop visits its points. -/
inductive Direction where
  | forward
  | backward
deriving DecidableEq, Repr, Inhabited

namespace Direction

/-- The direction in which a loop must run so that a dependence over a distance other than zero
finds its source first. -/
def ofDistance (d : Int) : Direction := if 0 < d then forward else backward

def text : Direction → String
  | forward => "forward"
  | backward => "backward"

end Direction

/-- What the two accesses of a dependence do. -/
inductive DependenceKind where
  /-- Read after write. -/
  | flow
  /-- Write after read. -/
  | anti
  /-- Write after write. -/
  | output
deriving DecidableEq, Repr, Inhabited

/-- Which loop, if any, carries a dependence. -/
inductive Carrier where
  /-- Both accesses meet in one iteration, where the order of statements decides. -/
  | independent
  | carried (root : DimId) (direction : Direction)
  /-- The distance along a root is not known while scheduling. -/
  | unknown (root : DimId)
deriving DecidableEq, Repr, Inhabited

namespace Carrier

def root? : Carrier → Option DimId
  | independent => none
  | carried root _ => some root
  | unknown root => some root

/-- The direction a carrier demands; an unknown distance takes the natural one. -/
def direction? : Carrier → Option Direction
  | independent => none
  | carried _ direction => some direction
  | unknown _ => some .forward

def isCarried (c : Carrier) : Bool := c.root?.isSome

def isUnknown : Carrier → Bool
  | unknown _ => true
  | _ => false

/-- Both run along one root and demand different directions. -/
def opposes (c d : Carrier) : Bool :=
  c.isCarried && c.root? == d.root? && c.direction? != d.direction?

end Carrier

/-- A dependence between two equations, or of an equation on itself. -/
structure Edge where
  /-- The equation that must come first. -/
  source : Nat
  sink : Nat
  tensor : String
  kind : DependenceKind
  carrier : Carrier
deriving DecidableEq, Repr, Inhabited

namespace Edge

def isSelf (e : Edge) : Bool := e.source == e.sink

/-- One end is among `as` and the other among `bs`. -/
def connects (e : Edge) (as bs : List Nat) : Bool :=
  (as.contains e.source && bs.contains e.sink) || (bs.contains e.source && as.contains e.sink)

/-- Both ends are among `members`. -/
def isWithin (e : Edge) (members : List Nat) : Bool :=
  members.contains e.source && members.contains e.sink

end Edge

/-- The dependences of a program, each once. -/
structure DependenceGraph where
  edges : List Edge
deriving Inhabited

namespace DependenceGraph

/-- Edges with both ends among `members`. -/
def within (g : DependenceGraph) (members : List Nat) : List Edge :=
  g.edges.filter fun e => e.isWithin members

/-- Edges with one end among `as` and the other among `bs`. -/
def between (g : DependenceGraph) (as bs : List Nat) : List Edge :=
  g.edges.filter fun e => e.connects as bs

end DependenceGraph

end LoopNest
