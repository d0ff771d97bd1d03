import LoopNest.Expr.Text
import LoopNest.Tree.Basic
/-!
# Running a schedule

A schedule is run with values for its parameters and scalars: which equation runs at which point,
and which element it writes. Loop bounds, guards and left-hand sides are evaluated; right-hand
sides are not. Arithmetic is that of words, and a result that does not fit ends the run.
-/

namespace LoopNest

/-- Why a run ends early. -/
inductive TraceError where
  | unbound (name : String)
  /-- An expression without an integer value, given by its text. -/
  | unsupported (text : String)
  /-- A left-hand side that is no element, given by its text. -/
  | unsupportedTarget (text : String)
  | divisionByZero
  | overflow
deriving DecidableEq, Repr

def TraceError.message : TraceError → String
  | unbound name => "no value for '" ++ name ++ "'"
  | unsupported text => "cannot evaluate " ++ text ++ " to an integer"
  | unsupportedTarget text => "cannot evaluate left-hand side " ++ text ++ " to an integer"
  | divisionByZero => "division by zero"
  | overflow => "integer overflow"

/-- Values by name; of a name bound twice the last value holds. -/
abbrev Bindings := List (String × Int)

def Bindings.find? (b : Bindings) (name : String) : Option Int :=
  (b.reverse.find? fun pair => pair.1 == name).map Prod.snd

/-- Loops around a point with their values, outermost first. -/
abbrev Point := List (DimId × Int)

/-- The value of the innermost loop over a dimension. -/
def Point.find? (pt : Point) (d : DimId) : Option Int :=
  (pt.reverse.find? fun pair => pair.1 == d).map Prod.snd

/-- One executed instance of an equation. -/
structure Event where
  equation : Nat
  /-- Names and values of the loops around, outermost first. -/
  point : List (String × Int)
  tensor : String
  /-- The written element. -/
  index : List Int
deriving DecidableEq, Repr

/-! ## Values of expressions -/

/-- A result that must fit a word. -/
def fitting : Option Int → Except TraceError Int
  | some v => .ok v
  | none => .error .overflow

/-- A value that must be known. -/
def known (name : String) : Option Int → Except TraceError Int
  | some v => .ok v
  | none => .error (.unbound name)

/-- The value of an operator. Both divisions round the quotient down. -/
def BinOp.apply (op : BinOp) (a b : Int) : Except TraceError Int :=
  match op with
  | .add => fitting (Word.add? a b)
  | .sub => fitting (Word.sub? a b)
  | .mul => fitting (Word.mul? a b)
  | .div | .floorDiv => if b = 0 then .error .divisionByZero else fitting (Word.floorDiv? a b)
  | .mod => if b = 0 then .error .divisionByZero else fitting (Word.mod? a b)

theorem BinOp.apply_floorDiv (a : Int) {b : Int} (hb : b ≠ 0) :
    floorDiv.apply a b = fitting (Word.checked (a.fdiv b)) := by
  rw [apply, if_neg hb, Word.floorDiv?_eq hb]

theorem BinOp.ne_zero_of_floorDiv_apply {a b v : Int} (h : floorDiv.apply a b = .ok v) :
    b ≠ 0 := by
  rintro rfl
  cases h

def CmpOp.holds (op : CmpOp) (a b : Int) : Bool :=
  match op with
  | .eq => a = b
  | .ne => a ≠ b
  | .lt => a < b
  | .le => a ≤ b
  | .gt => a > b
  | .ge => a ≥ b

/-- Truth as an integer. -/
def ofTruth (b : Bool) : Int := if b then 1 else 0

/-- What expressions are evaluated in. -/
structure Scope where
  dims : DimTable
  bindings : Bindings
  point : Point

namespace Scope

mutual

/-- The integer that an expression denotes; a truth value counts as zero or one. -/
def int (s : Scope) : Expr → Except TraceError Int
  | .int v => .ok v
  | .symbol n => known n (s.bindings.find? n)
  | .dim d => known (s.dims.name d) (s.point.find? d)
  | .neg e => do fitting (Word.neg? (← int s e))
  | .binary op a b => do
    let a ← int s a
    let b ← int s b
    op.apply a b
  | .compare op a b => do
    let a ← int s a
    let b ← int s b
    return ofTruth (op.holds a b)
  | .and es => do return ofTruth (← allHold s es)
  | .float x => .error (.unsupported ((Expr.float x).text s.dims))
  | .access t is => .error (.unsupported ((Expr.access t is).text s.dims))
  | .element t es => .error (.unsupported ((Expr.element t es).text s.dims))
  | .call f es => .error (.unsupported ((Expr.call f es).text s.dims))

/-- Every term holds; none is evaluated after one that does not. -/
def allHold (s : Scope) : List Expr → Except TraceError Bool
  | [] => .ok true
  | e :: es => do
    let v ← int s e
    if v = 0 then return false else allHold s es

end

/-- An expression holds if it denotes anything but zero. -/
def truth (s : Scope) (e : Expr) : Except TraceError Bool := do return (← s.int e) ≠ 0

/-- The scope inside one more loop. -/
def bind (s : Scope) (d : DimId) (v : Int) : Scope := ⟨s.dims, s.bindings, s.point ++ [(d, v)]⟩

end Scope

/-! ## Running nodes -/

section Repetition

variable {ε α : Type}

/-- What `f` yields at `n` integers from `v` on, one `step` apart, after `done`, latest first. -/
def repeatOnto (f : Int → Except ε (List α)) (step : Int) :
    Nat → Int → List α → Except ε (List α)
  | 0, _, done => .ok done
  | n + 1, v, done =>
    match f v with
    | .ok xs => repeatOnto f step n (v + step) (xs.reverse ++ done)
    | .error e => .error e

/-- What `f` yields at `n` integers from `v` on, one `step` apart, in order. -/
def repeatFrom (f : Int → Except ε (List α)) (step : Int) (n : Nat) (v : Int) :
    Except ε (List α) :=
  (repeatOnto f step n v []).map List.reverse

theorem repeatOnto_eq (f : Int → Except ε (List α)) (step : Int) (n : Nat) (v : Int)
    (done : List α) :
    repeatOnto f step n v done = (repeatOnto f step n v []).map (· ++ done) := by
  induction n generalizing v done with
  | zero => simp [repeatOnto, Except.map]
  | succ n ih =>
    unfold repeatOnto
    cases f v with
    | error e => rfl
    | ok xs =>
      simp only
      rw [ih, ih (v + step) (xs.reverse ++ [])]
      cases repeatOnto f step n (v + step) [] <;> simp [Except.map]

theorem repeatFrom_zero (f : Int → Except ε (List α)) (step v : Int) :
    repeatFrom f step 0 v = .ok [] := rfl

theorem repeatFrom_succ (f : Int → Except ε (List α)) (step : Int) (n : Nat) (v : Int) :
    repeatFrom f step (n + 1) v =
      (f v).bind fun xs => (repeatFrom f step n (v + step)).map (xs ++ ·) := by
  unfold repeatFrom
  rw [repeatOnto]
  cases f v with
  | error e => rfl
  | ok xs =>
    simp only [Except.bind]
    rw [repeatOnto_eq]
    cases repeatOnto f step n (v + step) [] <;> simp [Except.map]

end Repetition

/-- What `f` yields at the integers of an interval, in a loop's direction. -/
def Direction.visit {ε α : Type} (direction : Direction) (lo hi : Int)
    (f : Int → Except ε (List α)) : Except ε (List α) :=
  let count := (hi - lo + 1).toNat
  match direction with
  | .forward => repeatFrom f 1 count lo
  | .backward => repeatFrom f (-1) count hi

/-- Names and values of the loops around a point. -/
def Scope.namedPoint (s : Scope) : List (String × Int) :=
  s.point.map fun pair => (s.dims.name pair.1, pair.2)

/-- The instance of a statement. -/
def Statement.event (s : Scope) (st : Statement) : Except TraceError Event :=
  match st.lhs with
  | .element tensor indices => do
    let index ← indices.mapM s.int
    return ⟨st.equation, s.namedPoint, tensor, index⟩
  | e => .error (.unsupportedTarget (e.text s.dims))

namespace Node

mutual

/-- The events of a node in order of execution. -/
def run (s : Scope) : Node → Except TraceError (List Event)
  | .loop l body => do
    let lo ← s.int l.bounds.min
    let hi ← s.int l.bounds.max
    l.direction.visit lo hi fun v => runAll (s.bind l.dim v) body
  | .guard e _ body => do
    if ← s.truth e then runAll s body else return []
  | .statement st => do return [← st.event s]

def runAll (s : Scope) : List Node → Except TraceError (List Event)
  | [] => .ok []
  | n :: ns => do
    let events ← run s n
    return events ++ (← runAll s ns)

end

/-- Nodes run one after another, and the first failure ends the run. -/
theorem runAll_append (s : Scope) (ns ms : List Node) :
    runAll s (ns ++ ms) = (runAll s ns).bind fun xs => (runAll s ms).map (xs ++ ·) := by
  induction ns with
  | nil =>
    simp only [List.nil_append, runAll, Except.bind]
    cases runAll s ms <;> rfl
  | cons n ns ih =>
    simp only [List.cons_append, runAll, bind, ih]
    cases run s n with
    | error e => rfl
    | ok xs =>
      cases runAll s ns with
      | error e => rfl
      | ok ys =>
        cases runAll s ms with
        | error e => rfl
        | ok zs => exact congrArg Except.ok (List.append_assoc xs ys zs).symm

end Node

/-- Parameters that have a default, with it. -/
def defaultBindings (parameters : List Parameter) : Bindings :=
  parameters.filterMap fun q => q.default?.map fun v => (q.name, v)

namespace ScheduleTree

/-- The events of a schedule in order of execution. Bindings override defaults. -/
def events (t : DimTable) (tree : ScheduleTree) (bindings : Bindings) :
    Except TraceError (List Event) :=
  Node.runAll ⟨t, defaultBindings tree.parameters ++ bindings, []⟩ tree.roots

/-- The events of a schedule, their number noted. -/
def trace (t : DimTable) (tree : ScheduleTree) (bindings : Bindings) :
    Logged TraceError (List Event) := do
  let events ← Logged.ofExcept (tree.events t bindings)
  Logged.note (.traced events.length)
  return events

end ScheduleTree

end LoopNest
