import LoopNest.Word
import LoopNest.Expr.Basic
/-!
# Folding constructors

`Expr.fold op a b`, `Expr.negated a` and `Expr.all ts` build `a op b`, `-a` and the conjunction
of `ts` in a simpler form where one is at hand: integer constants are combined where the result
fits a word, a negative addend changes the operator, neutral operands are dropped, and a
conjunction inside a conjunction is opened.
-/

namespace LoopNest

/-- The value of an operator at two constants, where folding may use it: the sum, difference and
product that fit, and the quotient and remainder of a positive divisor. -/
def BinOp.constant? : BinOp → Int → Int → Option Int
  | .add, a, b => Word.add? a b
  | .sub, a, b => Word.sub? a b
  | .mul, a, b => Word.mul? a b
  | .floorDiv, a, b => if 0 < b then Word.euclidDiv? a b else none
  | .mod, a, b => if 0 < b then Word.mod? a b else none
  | .div, _, _ => none

/-- The operator that undoes a change of sign in the right operand. -/
def BinOp.flip? : BinOp → Option BinOp
  | .add => some .sub
  | .sub => some .add
  | _ => none

namespace Expr

/-- `lhs op rhs` without a neutral operand. -/
def dropNeutral (op : BinOp) (lhs rhs : Expr) : Expr :=
  match op, lhs, rhs with
  | .add, lhs, .int 0 => lhs
  | .sub, lhs, .int 0 => lhs
  | .add, .int 0, rhs => rhs
  | .mul, lhs, .int 1 => lhs
  | .mul, .int 1, rhs => rhs
  | op, lhs, rhs => .binary op lhs rhs

/-- Two constants combined, where folding may do so. -/
def constant? (op : BinOp) : Expr → Expr → Option Expr
  | .int a, .int b => (op.constant? a b).map .int
  | _, _ => none

/-- The opposite of a negative constant under an additive operator, with the operator changed
to match: `x + -1` reads as `x - 1`. -/
def flipped? (op : BinOp) : Expr → Option (BinOp × Int)
  | .int k =>
    if k < 0 then do
      let op ← op.flip?
      let n ← Word.neg? k
      return (op, n)
    else none
  | _ => none

/-- `lhs op rhs` for a right operand that has no sign to change. -/
def foldUnsigned (op : BinOp) (lhs rhs : Expr) : Expr :=
  (constant? op lhs rhs).getD (dropNeutral op lhs rhs)

/-- `lhs op rhs`, folded. -/
def fold (op : BinOp) (lhs rhs : Expr) : Expr :=
  match constant? op lhs rhs with
  | some e => e
  | none =>
    match flipped? op rhs with
    | some (op, n) => foldUnsigned op lhs (.int n)
    | none => dropNeutral op lhs rhs

/-- `-e`, folded. The least word has no opposite and keeps its sign apart. -/
def negated : Expr → Expr
  | .int v => if v = Word.least then .neg (.int v) else .int (-v)
  | e => .neg e

/-- The terms a term stands for in a conjunction: its own terms if it is one itself. -/
def conjuncts : Expr → List Expr
  | .and terms => terms
  | e => [e]

/-- The conjunction of terms with conjunctions among them opened once; of one term, the term. -/
def all (terms : List Expr) : Expr :=
  match terms.flatMap conjuncts with
  | [e] => e
  | flat => .and flat

/-- Sum, folded. -/
instance : Add Expr := ⟨fold .add⟩

/-- Difference, folded. -/
instance : Sub Expr := ⟨fold .sub⟩

end Expr

end LoopNest
