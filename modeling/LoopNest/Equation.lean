import LoopNest.DimTable.Build
/-!
# Equations

An equation writes one tensor element per point of its iteration space. Its subdomain lists
dimensions together with parts of them: applying it puts the part in the place of the whole
everywhere and so restricts the equation to a region.
-/

namespace LoopNest

/-- `lhs = rhs`, evaluated at every point of the iteration space. -/
structure Equation where
  lhs : Access
  rhs : Expr
  /-- Replaced dimensions with what replaces them. -/
  subdomain : List (DimId × DimId)
  /-- Dimensions that gate the equation without being an index. -/
  implicit : List DimId
deriving Inhabited

namespace Equation

/-- The equation with dimension `old` replaced by `new` everywhere. -/
def subst (old new : DimId) (eq : Equation) : Equation where
  lhs := eq.lhs.subst old new
  rhs := eq.rhs.subst old new
  subdomain := eq.subdomain.map fun pair => (pair.1.subst old new, pair.2.subst old new)
  implicit := eq.implicit.map fun d => d.subst old new

/-- What the right-hand side reads, in order of appearance. -/
def reads (eq : Equation) : List Access := eq.rhs.accesses

/-- The dimensions an equation mentions, in order of first appearance: those that index the
left-hand side, those of the right-hand side, then the implicit ones. -/
def dims (eq : Equation) : List DimId :=
  (eq.lhs.indices.map Index.dim ++ eq.rhs.dims ++ eq.implicit).eraseDups

/-- Why `new` may not stand for `old`, if so. -/
def subdomainFault? (t : DimTable) (old new : DimId) : Option SubdomainFault :=
  if old = new then some .itself
  else if !t.derives new old then some .notDerived
  else if (t.get new).ridesOnParent then some .notSubRange
  else none

/-- In a subdomain, what replaces a dimension is a part of it. -/
def checkMapping (t : DimTable) (pair : DimId × DimId) : Except ModelError Unit := do
  t.check pair.1
  t.check pair.2
  match subdomainFault? t pair.1 pair.2 with
  | some fault => throw (.badSubdomain (t.name pair.1) (t.name pair.2) fault)
  | none => return ()

def checkMappings (t : DimTable) (eq : Equation) : Except ModelError Unit :=
  eq.subdomain.forM (checkMapping t)

/-- The equation with its replacements carried out one after another, and none left. -/
def restricted (eq : Equation) : Equation :=
  eq.subdomain.foldl (fun eq pair => eq.subst pair.1 pair.2)
    ⟨eq.lhs, eq.rhs, [], eq.implicit⟩

/-- The restricted equation, if the subdomain is as it must be. -/
def restrict (t : DimTable) (eq : Equation) : Except ModelError Equation := do
  eq.checkMappings t
  return eq.restricted

end Equation

end LoopNest
