import LoopNest.Word
import LoopNest.DimTable.Basic
/-!
# Distances between accesses

Accesses are compared along a root they share, so `u[xi - 1]` and `u[x]` are one point apart
whichever part of the range each goes through. A distance is known if both displacements are, or
if they are the same expression. Indices through different strides number different sequences
of points and have no known distance.
-/

namespace LoopNest

/-- The nearest dimension on the chain of `d` that admits every so many points, if any. -/
def DimTable.stride? (t : DimTable) (d : DimId) : Option DimId :=
  (t.chain d).find? fun a =>
    match (t.get a).condition? with
    | some (.stride _) => true
    | _ => false

/-- The first index of an access along a root. -/
def Access.along? (t : DimTable) (a : Access) (root : DimId) : Option Index :=
  a.indices.find? fun i => t.root i.dim == root

namespace Index

/-- How far the first displacement is ahead of the second. -/
def shiftDifference? : Index → Index → Option Int
  | .fixed _ k, .fixed _ l => Word.sub? k l
  | .symbolic _ a, .symbolic _ b => if a == b then some 0 else none
  | _, _ => none

/-- How far the first index is ahead of the second, where it is known. -/
def difference? (t : DimTable) (i j : Index) : Option Int :=
  if t.stride? i.dim = t.stride? j.dim then i.shiftDifference? j else none

end Index

/-- How far the first access is ahead of the second along a root. What is assumed where neither
indexes the root is up to the caller. -/
def Access.distance? (t : DimTable) (unindexed : Option Int) (root : DimId) (a b : Access) :
    Option Int :=
  match a.along? t root, b.along? t root with
  | some i, some j => i.difference? t j
  | none, none => unindexed
  | _, _ => none

end LoopNest
