import LoopNest.DimTable.Basic
/-!
# Problems

A problem is a program as people write it: dimensions, scalars and equations that refer to
each other by name. Sums, products and conjunctions may have any number of terms.
-/

namespace LoopNest.Problem

mutual

/-- An expression over names. -/
inductive Term where
  | int (value : Int)
  | float (value : Float)
  | symbol (name : String)
  | dim (name : String)
  | access (tensor : String) (indices : List Place)
  | neg (e : Term)
  | sum (terms : List Term)
  | product (factors : List Term)
  | binary (op : BinOp) (lhs rhs : Term)
  | compare (op : CmpOp) (lhs rhs : Term)
  | and (terms : List Term)
  | call (function : String) (args : List Term)

/-- An index over names: a dimension, and how far from it. -/
inductive Place where
  | fixed (dim : String) (shift : Int)
  | symbolic (dim : String) (shift : Term)

end

instance : Inhabited Term := ⟨.int 0⟩

instance : Inhabited Place := ⟨.fixed "" 0⟩

/-- How a dimension is declared to come about. -/
inductive Origin where
  | space (size : Option Nat)
  | time (size : Option Nat)
  | stepping (parent : String) (modulo : Nat)
  | sub (parent : String) (side : Side) (left right : Int)
  | conditional (parent : String) (factor : Option Int) (condition : Option Term)

structure DimensionDecl where
  name : String
  origin : Origin

structure EquationDecl where
  tensor : String
  indices : List Place
  rhs : Term
  /-- Replaced dimensions with what replaces them, in ascending order of the former. -/
  subdomain : List (String × String)
  implicit : List String

end LoopNest.Problem

namespace LoopNest

/-- A program over names. -/
structure Problem where
  dimensions : List Problem.DimensionDecl
  scalars : List String
  equations : List Problem.EquationDecl

end LoopNest
