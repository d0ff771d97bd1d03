import LoopNest.Expr.Occurrence
/-!
# Iteration dimensions

A dimension is a root (space or time) or derives from a parent: a part of the parent's range, a
guarded subset of its points, or an index into a circular buffer. A table holds the dimensions of
a program in order of creation, and each of them is admissible after those before it: it has a
name of its own, its parent exists already, and its numbers are of a meaningful size. That fact is
a field of the table, so every operation on tables keeps it.

The chain of a dimension leads from it through its parents to its root
(`DimTable.chain_of_parent`), and everything a dimension inherits is found along the chain.
-/

namespace LoopNest

/-- The part of its parent's range that a sub-dimension covers. -/
inductive Side where
  /-- The first points. -/
  | left
  /-- The last points. -/
  | right
  /-- All but some first and some last points. -/
  | middle
deriving DecidableEq, Repr, Inhabited

/-- What admits a point of the parent to a conditional dimension. -/
inductive Condition where
  /-- Every point whose value the stride divides; without a stride, that of the options. -/
  | stride (factor : Option Int)
  /-- Every point where the predicate holds. -/
  | predicate (e : Expr)
deriving Inhabited

/-- How a dimension comes about. -/
inductive DimKind where
  | space (size : Option Nat)
  | time (size : Option Nat)
  /-- The parent's value wrapped onto a buffer of `modulo` slots. -/
  | stepping (parent : DimId) (modulo : Nat)
  /-- A part of the parent's range; `left` and `right` count points at its two ends. -/
  | sub (parent : DimId) (side : Side) (left right : Int)
  /-- The points of the parent that a condition admits. -/
  | conditional (parent : DimId) (condition : Condition)
deriving Inhabited

namespace DimKind

def parent? : DimKind → Option DimId
  | .space _ | .time _ => none
  | .stepping p _ => some p
  | .sub p _ _ _ => some p
  | .conditional p _ => some p

end DimKind

/-- An iteration dimension. -/
structure Dimension where
  name : String
  kind : DimKind
deriving Inhabited

namespace Dimension

def parent? (d : Dimension) : Option DimId := d.kind.parent?

def isTime (d : Dimension) : Bool :=
  match d.kind with
  | .time _ => true
  | _ => false

def condition? (d : Dimension) : Option Condition :=
  match d.kind with
  | .conditional _ c => some c
  | _ => none

def isConditional (d : Dimension) : Bool := d.condition?.isSome

def modulo? (d : Dimension) : Option Nat :=
  match d.kind with
  | .stepping _ m => some m
  | _ => none

def isStepping (d : Dimension) : Bool := d.modulo?.isSome

def isSub (d : Dimension) : Bool :=
  match d.kind with
  | .sub _ _ _ _ => true
  | _ => false

/-- Conditional and stepping dimensions have no loop of their own. -/
def ridesOnParent (d : Dimension) : Bool := d.isConditional || d.isStepping

/-- The predicate that gates a conditional dimension. -/
def predicate? (d : Dimension) : Option Expr :=
  match d.kind with
  | .conditional _ (.predicate e) => some e
  | _ => none

/-! Names of the parameters through which a run may change a dimension. -/

def minName (d : Dimension) : String := d.name ++ "_m"

def maxName (d : Dimension) : String := d.name ++ "_M"

def leftName (d : Dimension) : String := d.name ++ "_ltkn"

def rightName (d : Dimension) : String := d.name ++ "_rtkn"

def factorName (d : Dimension) : String := d.name ++ "_factor"

end Dimension

/-! ## Chains of parents -/

namespace Dimension

/-- The dimension of an identity among those created so far. -/
def lookup (es : List Dimension) (d : DimId) : Dimension := es[d.index]?.getD default

/-- The parent of an identity among the dimensions created so far. -/
def parentIn? (es : List Dimension) (d : DimId) : Option DimId :=
  es[d.index]?.bind Dimension.parent?

/-- The first `n` members of a chain of parents. -/
def chainOf (es : List Dimension) : Nat → DimId → List DimId
  | 0, _ => []
  | n + 1, d => d :: ((parentIn? es d).map (chainOf es n)).getD []

/-- The dimension, its parent, and so on up to its root. As parents stand before their children,
no chain is longer than its first member's place allows. -/
def chainIn (es : List Dimension) (d : DimId) : List DimId := chainOf es (d.index + 1) d

/-- The chain of a dimension as dimensions rather than identities. -/
def lineageIn (es : List Dimension) (d : DimId) : List Dimension := (chainIn es d).map (lookup es)

/-- The number of points of the first dimension of a lineage, where it is known beforehand. -/
def sizeAlong : List Dimension → Option Nat
  | [] => none
  | d :: above =>
    match d.kind with
    | .space size | .time size => size
    | .stepping _ _ | .conditional _ _ => sizeAlong above
    | .sub _ .left left _ => some left.toNat
    | .sub _ .right _ right => some right.toNat
    | .sub _ .middle left right => do
      let size ← sizeAlong above
      if left + right ≤ size then some (size - (left + right).toNat) else none

/-- The number of points of a dimension, where it is known beforehand. -/
def sizeIn (es : List Dimension) (d : DimId) : Option Nat := sizeAlong (lineageIn es d)

end Dimension

/-! ## Tables -/

/-- The kind makes sense after the dimensions `older`: buffers have slots, strides advance, a
predicate speaks of dimensions that exist, and a part is taken of a range that has room for it. -/
def DimKind.Fits (older : List Dimension) : DimKind → Prop
  | .space _ | .time _ => True
  | .stepping _ modulo => 0 < modulo
  | .sub p _ left right =>
    0 ≤ left ∧ 0 ≤ right ∧ (Dimension.lookup older p).ridesOnParent = false ∧
      ∀ size : Nat, Dimension.sizeIn older p = some size → left + right ≤ size
  | .conditional _ (.stride (some factor)) => 0 < factor
  | .conditional _ (.stride none) => True
  | .conditional _ (.predicate e) => ∀ a ∈ e.dims, a.index < older.length

/-- The dimension may be created after the dimensions `older`. -/
structure Dimension.Admissible (older : List Dimension) (d : Dimension) : Prop where
  named : d.name ≠ ""
  fresh : d.name ∉ older.map Dimension.name
  parent_issued : ∀ p, d.parent? = some p → p.index < older.length
  fits : d.kind.Fits older

/-- The dimensions of a program in order of creation. -/
structure DimTable where
  entries : List Dimension
  admissible : ∀ (older : List Dimension) (d : Dimension) (newer : List Dimension),
    entries = older ++ d :: newer → d.Admissible older

namespace DimTable

def empty : DimTable where
  entries := []
  admissible := by simp

instance : Inhabited DimTable := ⟨empty⟩

def size (t : DimTable) : Nat := t.entries.length

/-- Identities of all dimensions, in order of creation. -/
def ids (t : DimTable) : List DimId := (List.range t.size).map DimId.mk

def get? (t : DimTable) (d : DimId) : Option Dimension := t.entries[d.index]?

/-- The dimension of an identity that the table has issued. -/
def get (t : DimTable) (d : DimId) : Dimension := Dimension.lookup t.entries d

def name (t : DimTable) (d : DimId) : String := (t.get d).name

/-- The dimension of a name. -/
def find? (t : DimTable) (name : String) : Option DimId :=
  (t.entries.findIdx? fun d => d.name == name).map DimId.mk

/-- The table has issued this identity. -/
def contains (t : DimTable) (d : DimId) : Bool := d.index < t.size

def parent? (t : DimTable) (d : DimId) : Option DimId := Dimension.parentIn? t.entries d

/-- The dimension, its parent, and so on up to its root. -/
def chain (t : DimTable) (d : DimId) : List DimId := Dimension.chainIn t.entries d

/-- The chain of a dimension as dimensions rather than identities. -/
def lineage (t : DimTable) (d : DimId) : List Dimension := Dimension.lineageIn t.entries d

theorem parent_lt {t : DimTable} {d p : DimId} (h : t.parent? d = some p) : p.index < d.index := by
  unfold parent? Dimension.parentIn? at h
  cases hd : t.entries[d.index]? with
  | none => simp [hd] at h
  | some e =>
    obtain ⟨hlt, he⟩ := List.getElem?_eq_some_iff.mp hd
    have split : t.entries = t.entries.take d.index ++ e :: t.entries.drop (d.index + 1) := by
      rw [← he, List.getElem_cons_drop, List.take_append_drop]
    have := (t.admissible _ _ _ split).parent_issued p (by simpa [hd] using h)
    simp only [List.length_take] at this
    omega

theorem chainOf_of_lt {t : DimTable} {n m : Nat} {d : DimId} (hn : d.index < n)
    (hm : d.index < m) : Dimension.chainOf t.entries n d = Dimension.chainOf t.entries m d := by
  induction n generalizing m d with
  | zero => omega
  | succ n ih =>
    cases m with
    | zero => omega
    | succ m =>
      unfold Dimension.chainOf
      cases hp : Dimension.parentIn? t.entries d with
      | none => rfl
      | some p =>
        have := @parent_lt t d p hp
        simp [@ih m p (by omega) (by omega)]

theorem chain_of_root {t : DimTable} {d : DimId} (h : t.parent? d = none) : t.chain d = [d] := by
  unfold parent? at h
  simp [chain, Dimension.chainIn, Dimension.chainOf, h]

/-- Any other chain goes on with the parent's. -/
theorem chain_of_parent {t : DimTable} {d p : DimId} (h : t.parent? d = some p) :
    t.chain d = d :: t.chain p := by
  have hp := parent_lt h
  unfold parent? at h
  unfold chain Dimension.chainIn
  rw [Dimension.chainOf, h]
  simp only [Option.map_some, Option.getD_some]
  rw [@chainOf_of_lt t d.index (p.index + 1) p hp (by omega)]

/-- The root a dimension ultimately derives from. -/
def root (t : DimTable) (d : DimId) : DimId := (t.chain d).getLast?.getD d

/-- `ancestor` is `d` or one of the dimensions it derives from. -/
def derives (t : DimTable) (d ancestor : DimId) : Bool := (t.chain d).contains ancestor

/-- The dimension whose loop visits the points of `d`: itself, unless it rides on its
parent's. -/
def loopOf (t : DimTable) (d : DimId) : DimId :=
  ((t.chain d).find? fun a => !(t.get a).ridesOnParent).getD d

/-- Time only moves forward. -/
def isTimeLike (t : DimTable) (d : DimId) : Bool := (t.get (t.root d)).isTime

/-- The conditional dimensions between `d` and the loop that visits its points, `d` first. -/
def conditionsOf (t : DimTable) (d : DimId) : List DimId :=
  ((t.chain d).takeWhile fun a => (t.get a).ridesOnParent).filter fun a => (t.get a).isConditional

end DimTable

end LoopNest
