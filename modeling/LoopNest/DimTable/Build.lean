import LoopNest.DimTable.Extent
/-!
# Adding dimensions to a table

A dimension is added at the end of the table and gets the next identity. What the arguments must
satisfy is checked in a fixed order, and the first fault is the one reported.
-/

namespace LoopNest

/-- Why a dimension is malformed. -/
inductive Malformation where
  | emptyName
  | nameInUse
  | noSlots
  | negativeThickness
  /-- Only roots and sub-dimensions can be restricted to a part. -/
  | cannotRestrict (parent : String)
  | tooThick (left right : Int) (size : Nat) (parent : String)
  | strideAndCondition
  | strideNotPositive (factor : Int)
deriving DecidableEq, Repr

/-- Why one dimension cannot stand for another in a subdomain. -/
inductive SubdomainFault where
  | itself
  | notDerived
  | notSubRange
deriving DecidableEq, Repr

/-- What can be wrong with dimensions and with equations over them. -/
inductive ModelError where
  /-- An identity that the table has not issued. -/
  | badHandle (index size : Nat)
  | malformed (name : String) (reason : Malformation)
  | badSubdomain (source target : String) (reason : SubdomainFault)
deriving DecidableEq, Repr

namespace Malformation

def message : Malformation → String
  | emptyName => "empty name"
  | nameInUse => "name already in use"
  | noSlots => "buffer modulo must be positive"
  | negativeThickness => "thickness must be non-negative"
  | cannotRestrict parent => s!"cannot restrict conditional or stepping dimension '{parent}'"
  | tooThick left right size parent =>
    s!"thickness {left}+{right} exceeds size {size} of '{parent}'"
  | strideAndCondition => "both a stride factor and a condition were supplied"
  | strideNotPositive factor => s!"stride factor must be positive, got {factor}"

end Malformation

namespace SubdomainFault

def message : SubdomainFault → String
  | itself => "a dimension cannot replace itself"
  | notDerived => "target does not derive from the replaced dimension"
  | notSubRange => "target must be a sub-range, not a guard or buffer index"

end SubdomainFault

namespace ModelError

def message : ModelError → String
  | badHandle index size => s!"handle index {index} out of bounds (arena size: {size})"
  | malformed name reason =>
    let text := reason.message
    s!"malformed dimension '{name}': {text}"
  | badSubdomain source target reason =>
    let text := reason.message
    s!"invalid subdomain mapping '{source}' -> '{target}': {text}"

end ModelError

namespace DimTable

/-- Only identities that the table has issued pass. -/
def check (t : DimTable) (d : DimId) : Except ModelError Unit :=
  if t.contains d then .ok () else .error (.badHandle d.index t.size)

/-- The table with one more dimension at its end. -/
def snoc (t : DimTable) (d : Dimension) (h : d.Admissible t.entries) : DimTable where
  entries := t.entries ++ [d]
  admissible := by
    intro older e newer split
    rcases List.eq_nil_or_concat newer with rfl | ⟨init, last, rfl⟩
    · obtain ⟨rfl, he⟩ := List.append_inj' split rfl
      cases he
      exact h
    · have split' : t.entries ++ [d] = (older ++ e :: init) ++ [last] := by
        simpa using split
      exact t.admissible older e init (List.append_inj' split' rfl).1

/-- Adds a dimension of a fitting kind under a name of its own. -/
def insert (t : DimTable) (name : String) (kind : DimKind) (fits : kind.Fits t.entries) :
    Except ModelError (DimTable × DimId) :=
  if named : name = "" then .error (.malformed name .emptyName)
  else if fresh : name ∈ t.entries.map Dimension.name then .error (.malformed name .nameInUse)
  else
    match parent : kind.parent? with
    | none =>
      .ok (t.snoc ⟨name, kind⟩ ⟨named, fresh, by simp [Dimension.parent?, parent], fits⟩, ⟨t.size⟩)
    | some p =>
      if issued : p.index < t.size then
        .ok (t.snoc ⟨name, kind⟩ ⟨named, fresh, fun q hq => by
          simp only [Dimension.parent?, parent, Option.some.injEq] at hq
          exact hq ▸ issued, fits⟩, ⟨t.size⟩)
      else .error (.badHandle p.index t.size)

/-- Adds a root of space. -/
def space (t : DimTable) (name : String) (size : Option Nat) :
    Except ModelError (DimTable × DimId) :=
  t.insert name (.space size) trivial

/-- Adds a root of time. -/
def time (t : DimTable) (name : String) (size : Option Nat) :
    Except ModelError (DimTable × DimId) :=
  t.insert name (.time size) trivial

/-- Adds the index of a circular buffer of `modulo` slots over `parent`. -/
def stepping (t : DimTable) (name : String) (parent : DimId) (modulo : Nat) :
    Except ModelError (DimTable × DimId) :=
  if slots : 0 < modulo then t.insert name (.stepping parent modulo) slots
  else .error (.malformed name .noSlots)

/-- A thickness that a side does not use counts as zero. -/
def usedThickness : Side → Int → Int → Int × Int
  | .left, left, _ => (left, 0)
  | .right, _, right => (0, right)
  | .middle, left, right => (left, right)

/-- Two thicknesses leave room in a range whose size is unknown or no less than their sum. -/
def leavesRoom (left right : Int) : Option Nat → Bool
  | none => true
  | some size =>
    match Word.add? left right with
    | some total => total ≤ size
    | none => false

theorem le_of_leavesRoom {left right : Int} {size : Nat}
    (h : leavesRoom left right (some size) = true) : left + right ≤ size := by
  unfold leavesRoom at h
  cases hw : Word.add? left right with
  | none => simp [hw] at h
  | some total =>
    have := (Word.checked_eq_some_iff.mp hw).2
    simp only [hw, decide_eq_true_eq] at h
    omega

/-- Adds a part of `parent`'s range. -/
def sub (t : DimTable) (name : String) (parent : DimId) (side : Side) (left right : Int) :
    Except ModelError (DimTable × DimId) := do
  t.check parent
  let used := usedThickness side left right
  if sign : 0 ≤ used.1 ∧ 0 ≤ used.2 then
    if rides : (t.get parent).ridesOnParent then
      throw (.malformed name (.cannotRestrict (t.name parent)))
    else if room : leavesRoom used.1 used.2 (t.knownSize parent) then
      t.insert name (.sub parent side used.1 used.2)
        ⟨sign.1, sign.2, by simpa [get] using rides, fun size known =>
          le_of_leavesRoom (known ▸ room)⟩
    else
      throw (.malformed name
        (.tooThick used.1 used.2 ((t.knownSize parent).getD 0) (t.name parent)))
  else throw (.malformed name .negativeThickness)

/-- Adds the first `thickness` points of `parent`. -/
def subLeft (t : DimTable) (name : String) (parent : DimId) (thickness : Int) :
    Except ModelError (DimTable × DimId) :=
  t.sub name parent .left thickness 0

/-- Adds the last `thickness` points of `parent`. -/
def subRight (t : DimTable) (name : String) (parent : DimId) (thickness : Int) :
    Except ModelError (DimTable × DimId) :=
  t.sub name parent .right 0 thickness

/-- Adds `parent` without its first `left` and its last `right` points. -/
def subMiddle (t : DimTable) (name : String) (parent : DimId) (left right : Int) :
    Except ModelError (DimTable × DimId) :=
  t.sub name parent .middle left right

/-- Adds the points of `parent` that a stride or a predicate admits; without either, the stride
of the options will do. -/
def conditional (t : DimTable) (name : String) (parent : DimId) (factor : Option Int)
    (predicate : Option Expr) : Except ModelError (DimTable × DimId) :=
  match factor, predicate with
  | some _, some _ => .error (.malformed name .strideAndCondition)
  | some f, none =>
    if advances : 0 < f then t.insert name (.conditional parent (.stride (some f))) advances
    else .error (.malformed name (.strideNotPositive f))
  | none, none => t.insert name (.conditional parent (.stride none)) trivial
  | none, some e =>
    match foreign : e.dims.find? fun a => !t.contains a with
    | some a => .error (.badHandle a.index t.size)
    | none =>
      t.insert name (.conditional parent (.predicate e)) fun a ha => by
        have := List.find?_eq_none.mp foreign a ha
        simp only [Bool.not_eq_true', Bool.not_eq_false] at this
        exact of_decide_eq_true this

end DimTable

end LoopNest
