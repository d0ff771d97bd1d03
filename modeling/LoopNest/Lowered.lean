import LoopNest.Journal
import LoopNest.Program
/-!
# Equations with their loops

Lowering restricts each equation to its subdomain and finds the loops it needs: one per root it
mentions, over the narrowest dimension it mentions of that root. Two parts of one root of which
neither contains the other have no common loop. Conditional and stepping dimensions ride on the
loop of their parent; the conditional ones become the equation's conditions.
-/

namespace LoopNest

/-- The shape of an equation's iteration space. -/
structure Signature where
  /-- Loops from the outermost to the innermost. -/
  loops : List DimId
  /-- Conditional dimensions that gate the equation, sorted. -/
  conditions : List DimId
deriving DecidableEq, Repr, Inhabited

/-- An equation restricted to its subdomain, with the shape of its iteration space. -/
structure Lowered where
  /-- Place in the order of declaration. -/
  index : Nat
  equation : Equation
  signature : Signature
deriving Inhabited

/-- Why an access pattern admits no order of execution. -/
inductive IllegalOrder where
  | readsFuture
  | oppositeDirections
deriving DecidableEq, Repr

/-- What analysis can find wrong with a program. -/
inductive AnalysisError where
  | illegalDependence (tensor dim : String) (writer reader : Nat) (reason : IllegalOrder)
  | conflictingSubdomains (equation : Nat) (root first second : String)
  | bufferTooSmall (tensor dim : String) (levels : Int) (modulo : Nat)
  | model (error : ModelError)
deriving DecidableEq, Repr

def IllegalOrder.message : IllegalOrder → String
  | .readsFuture => "read of a value not yet written"
  | .oppositeDirections => "reads on both sides require opposite directions"

namespace AnalysisError

def message : AnalysisError → String
  | illegalDependence tensor dim writer reader reason =>
    let text := reason.message
    s!"illegal dependence on '{tensor}' along '{dim}' between e{writer} and e{reader}: {text}"
  | conflictingSubdomains equation root first second =>
    s!"e{equation} indexes both '{first}' and '{second}', which restrict '{root}' differently"
  | bufferTooSmall tensor dim levels modulo =>
    s!"accesses to '{tensor}' span {levels} levels of the {modulo}-slot buffer '{dim}'"
  | model error => error.message

end AnalysisError

namespace Lowered

def loops (e : Lowered) : List DimId := e.signature.loops

def conditions (e : Lowered) : List DimId := e.signature.conditions

/-- Roots of the loops, outermost first. -/
def roots (t : DimTable) (e : Lowered) : List DimId := e.loops.map t.root

/-- The written access. -/
def write (e : Lowered) : Access := e.equation.lhs

/-- What the predicates of the conditions read. -/
def conditionReads (t : DimTable) (e : Lowered) : List Access :=
  e.conditions.flatMap fun c => ((t.get c).predicate?.map Expr.accesses).getD []

/-- Everything read: the right-hand side first, then the predicates of the conditions. -/
def reads (t : DimTable) (e : Lowered) : List Access :=
  e.equation.reads ++ e.conditionReads t

/-- The write, then everything read. -/
def accesses (t : DimTable) (e : Lowered) : List Access := e.write :: e.reads t

end Lowered

/-! ## Lowering -/

namespace Lowered

/-- The loops with that of one more dimension. Of two loops over one root the narrower stays. -/
def addLoop (t : DimTable) (equation : Nat) (loops : List DimId) (d : DimId) :
    Logged AnalysisError (List DimId) :=
  let loop := t.loopOf d
  let root := t.root loop
  match loops.find? fun l => t.root l == root with
  | none => pure (loops ++ [loop])
  | some existing =>
    if t.derives existing loop then pure loops
    else if t.derives loop existing then do
      Logged.note (.narrowed equation (t.name root) (t.name existing) (t.name loop))
      return loops.map fun l => if l = existing then loop else l
    else
      Logged.ofExcept (.error
        (.conflictingSubdomains equation (t.name root) (t.name existing) (t.name loop)))

/-- The loops with those of several dimensions, in order. -/
def addLoops (t : DimTable) (equation : Nat) : List DimId → List DimId →
    Logged AnalysisError (List DimId)
  | loops, [] => pure loops
  | loops, d :: ds => do
    let loops ← addLoop t equation loops d
    addLoops t equation loops ds

/-- Loops over time come outermost; otherwise the order stays. -/
def timeFirst (t : DimTable) (loops : List DimId) : List DimId :=
  loops.filter t.isTimeLike ++ loops.filter fun l => !t.isTimeLike l

/-- The conditional dimensions met on the way from some dimensions to their loops. -/
def conditionsMet (t : DimTable) (ds : List DimId) : List DimId :=
  SortedSet.ofList (ds.flatMap t.conditionsOf)

/-- An equation with its loops. -/
def ofEquation (t : DimTable) (index : Nat) (eq : Equation) : Logged AnalysisError Lowered := do
  let eq ← Logged.ofExcept ((eq.restrict t).mapError .model)
  let loops ← addLoops t index [] eq.dims
  return ⟨index, eq, ⟨timeFirst t loops, conditionsMet t eq.dims⟩⟩

/-- Equations from a place in the order of declaration on. -/
def ofEquations (t : DimTable) : Nat → List Equation → Logged AnalysisError (List Lowered)
  | _, [] => pure []
  | i, eq :: eqs => do
    let e ← ofEquation t i eq
    let es ← ofEquations t (i + 1) eqs
    return e :: es

/-- The dimensions that equations or their conditions mention, or that those derive from. -/
def usedDims (t : DimTable) (es : List Lowered) : List DimId :=
  es.flatMap fun e =>
    (e.equation.dims ++ e.conditions.flatMap t.predicateDims).flatMap t.chain

/-- Dimensions that no equation needs. -/
def unusedDims (t : DimTable) (es : List Lowered) : List DimId :=
  let used := usedDims t es
  t.ids.filter fun d => !used.contains d

end Lowered

/-- The equations of a program with their loops, in order of declaration. -/
def Program.lower (p : Program) : Logged AnalysisError (List Lowered) := do
  Logged.ofExcept (p.check.mapError .model)
  let es ← Lowered.ofEquations p.dims 0 p.equations
  Logged.noteAll ((Lowered.unusedDims p.dims es).map fun d => .unusedDimension (p.dims.name d))
  Logged.note (.lowered es.length p.dims.size)
  return es

end LoopNest
