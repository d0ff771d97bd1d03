/-!
# Expressions over iteration dimensions

An expression is a right-hand side, a bound or a guard predicate. A tensor is addressed either
relative to iteration dimensions (`Expr.access`) or by finished index expressions
(`Expr.element`). Equality `==` is syntactic: `t > 4` and `t >= 5` differ, and two
floating-point constants are equal as numbers are, so that a NaN differs from itself.
-/

namespace LoopNest

/-- Identity of a dimension: its place in the table of dimensions. -/
structure DimId where
  index : Nat
deriving DecidableEq, Repr, Inhabited

namespace DimId

instance : LT DimId := ⟨fun a b => a.index < b.index⟩

instance : DecidableLT DimId := fun a b => Nat.decLt a.index b.index

end DimId

/-- An arithmetic operator. -/
inductive BinOp where
  | add
  | sub
  | mul
  | div
  /-- Integer division rounded towards negative infinity. -/
  | floorDiv
  | mod
deriving DecidableEq, Repr, Inhabited

/-- A relational operator. -/
inductive CmpOp where
  | eq
  | ne
  | lt
  | le
  | gt
  | ge
deriving DecidableEq, Repr, Inhabited

mutual

/-- A symbolic expression. -/
inductive Expr where
  | int (value : Int)
  | float (value : Float)
  /-- A scalar or a parameter bound when the program runs. -/
  | symbol (name : String)
  /-- The iteration variable of a dimension. -/
  | dim (d : DimId)
  /-- A tensor element relative to iteration dimensions. -/
  | access (tensor : String) (indices : List Index)
  /-- A tensor element addressed by finished index expressions. -/
  | element (tensor : String) (indices : List Expr)
  | neg (e : Expr)
  | binary (op : BinOp) (lhs rhs : Expr)
  | compare (op : CmpOp) (lhs rhs : Expr)
  | and (terms : List Expr)
  /-- An opaque function application. -/
  | call (function : String) (args : List Expr)

/-- One index of an access: a dimension and the displacement from its iteration variable. -/
inductive Index where
  /-- A displacement known while scheduling. -/
  | fixed (d : DimId) (shift : Int)
  /-- Any other displacement. -/
  | symbolic (d : DimId) (shift : Expr)

end

instance : Inhabited Expr := ⟨.int 0⟩

instance : Inhabited Index := ⟨.fixed default 0⟩

namespace Index

/-- The dimension an index runs along. -/
def dim : Index → DimId
  | .fixed d _ => d
  | .symbolic d _ => d

/-- The displacement, where it is known while scheduling. -/
def fixed? : Index → Option Int
  | .fixed _ k => some k
  | .symbolic _ _ => none

/-- The displacement, where it is an expression. -/
def symbolic? : Index → Option Expr
  | .fixed _ _ => none
  | .symbolic _ e => some e

/-- The index displaced by an expression; an integer is a known displacement. -/
def displaced (d : DimId) : Expr → Index
  | .int k => .fixed d k
  | e => .symbolic d e

end Index

/-- A read or write of one tensor element per iteration point. -/
structure Access where
  tensor : String
  indices : List Index
deriving Inhabited

namespace Access

/-- The access as an expression. -/
def toExpr (a : Access) : Expr := .access a.tensor a.indices

/-- Every displacement is known while scheduling. -/
def isAffine (a : Access) : Bool := a.indices.all fun i => i.fixed?.isSome

end Access

/-! ## Syntactic equality -/

mutual

/-- Two expressions are the same tree. -/
def Expr.same : Expr → Expr → Bool
  | .int a => fun | .int b => a == b | _ => false
  | .float a => fun | .float b => a == b | _ => false
  | .symbol a => fun | .symbol b => a == b | _ => false
  | .dim a => fun | .dim b => a == b | _ => false
  | .access t is => fun | .access u js => t == u && Index.sameAll is js | _ => false
  | .element t es => fun | .element u fs => t == u && Expr.sameAll es fs | _ => false
  | .neg a => fun | .neg b => a.same b | _ => false
  | .binary o a b => fun | .binary p c d => o == p && a.same c && b.same d | _ => false
  | .compare o a b => fun | .compare p c d => o == p && a.same c && b.same d | _ => false
  | .and es => fun | .and fs => Expr.sameAll es fs | _ => false
  | .call f es => fun | .call g fs => f == g && Expr.sameAll es fs | _ => false

def Index.same : Index → Index → Bool
  | .fixed d k => fun | .fixed e l => d == e && k == l | _ => false
  | .symbolic d a => fun | .symbolic e b => d == e && a.same b | _ => false

def Expr.sameAll : List Expr → List Expr → Bool
  | [] => fun | [] => true | _ => false
  | a :: as => fun | b :: bs => a.same b && Expr.sameAll as bs | _ => false

def Index.sameAll : List Index → List Index → Bool
  | [] => fun | [] => true | _ => false
  | a :: as => fun | b :: bs => a.same b && Index.sameAll as bs | _ => false

end

instance : BEq Expr := ⟨Expr.same⟩

instance : BEq Index := ⟨Index.same⟩

end LoopNest
