/-!
# Options of a scheduling run
-/

namespace LoopNest

structure Options where
  /-- Stride of conditional dimensions that have neither a stride nor a predicate. -/
  defaultFactor : Int
  /-- Equations share clusters, and clusters share loops, where their dependences allow it. -/
  fusion : Bool
  /-- Innermost loops that are parallel and affine are marked for vectors. -/
  vectorize : Bool
deriving DecidableEq, Repr

instance : Inhabited Options := ⟨⟨1, true, true⟩⟩

end LoopNest
