/-!
# Runs that keep a journal

The stages of scheduling note what they decide. A `Logged` run yields its notes beside its
result; a failure ends the run and keeps the notes made before it. Leaving the notes out turns
a run into an ordinary result (`Logged.result_bind`), so facts about results never look at notes.
-/

namespace LoopNest

/-- What a stage notes. -/
inductive Note where
  | parsed (dims equations : Nat)
  /-- An equation mentions a part of the range it was to loop over. -/
  | narrowed (equation : Nat) (root wide narrow : String)
  | unusedDimension (name : String)
  | lowered (equations dims : Nat)
  | analyzed (equations edges : Nat)
  /-- An equation stays out of a cluster for want of a known distance. -/
  | unknownDistance (equation : Nat) (root : String) (cluster : List Nat)
  /-- An equation stays out of a cluster that runs the other way. -/
  | inconsistentDirection (root : String) (first second : Nat)
  | clustered (equations clusters : Nat)
  /-- A cluster does not join a loop for want of a known distance. -/
  | loopUnknownDistance (cluster : Nat) (root : String)
  /-- A cluster does not join a loop that runs the other way. -/
  | loopOppositeDirections (cluster : Nat) (root : String)
  | notVectorized (dim : String)
  | scheduled (equations clusters trees : Nat)
  | traced (events : Nat)
deriving DecidableEq, Repr

namespace Note

/-- A note that a reader of the program should see. -/
def isWarning : Note → Bool
  | unusedDimension _ => true
  | _ => false

/-- A list of numbers in brackets. -/
def listText (ns : List Nat) : String := "[" ++ ", ".intercalate (ns.map toString) ++ "]"

def text : Note → String
  | parsed dims equations => s!"parsed {dims} dimensions, {equations} equations"
  | narrowed equation root wide narrow =>
    s!"e{equation}: '{root}' narrowed from '{wide}' to '{narrow}'"
  | unusedDimension name => s!"dimension '{name}' is not used by any equation"
  | lowered equations dims => s!"lowered {equations} equations over {dims} dimensions"
  | analyzed equations edges => s!"dependence analysis: {equations} equations, {edges} edges"
  | unknownDistance equation root cluster =>
    let members := listText cluster
    s!"e{equation}: unknown distance along '{root}' to cluster {members}, not fusing"
  | inconsistentDirection root first second =>
    s!"inconsistent direction along '{root}' between e{first} and e{second}, not fusing"
  | clustered equations clusters => s!"clustering: {equations} equations into {clusters} clusters"
  | loopUnknownDistance cluster root =>
    s!"cluster {cluster}: unknown distance along '{root}', not sharing the loop"
  | loopOppositeDirections cluster root =>
    s!"cluster {cluster}: opposite directions along '{root}', not sharing the loop"
  | notVectorized dim => s!"loop '{dim}' is parallel but not affine, not vectorizing"
  | scheduled equations clusters trees =>
    s!"scheduled {equations} equations into {clusters} clusters, {trees} iteration trees"
  | traced events => s!"trace: {events} equation instances"

end Note

/-- A result and the notes made on the way to it, in order. -/
structure Logged (ε α : Type) where
  notes : List Note
  result : Except ε α

namespace Logged

variable {ε α β : Type}

/-- A result without notes. -/
def ofExcept (r : Except ε α) : Logged ε α := ⟨[], r⟩

/-- One note. -/
def note (n : Note) : Logged ε Unit := ⟨[n], .ok ()⟩

/-- Several notes. -/
def noteAll (ns : List Note) : Logged ε Unit := ⟨ns, .ok ()⟩

/-- One run after another; the second has the first one's value. -/
def andThen (x : Logged ε α) (f : α → Logged ε β) : Logged ε β :=
  match x.result with
  | .ok a => ⟨x.notes ++ (f a).notes, (f a).result⟩
  | .error e => ⟨x.notes, .error e⟩

instance : Monad (Logged ε) where
  pure a := ⟨[], .ok a⟩
  bind := andThen

/-- The run with its errors renamed. -/
def mapError {δ : Type} (f : ε → δ) (x : Logged ε α) : Logged δ α := ⟨x.notes, x.result.mapError f⟩

@[simp] theorem result_mapError {δ : Type} (f : ε → δ) (x : Logged ε α) :
    (x.mapError f).result = x.result.mapError f := rfl

@[simp] theorem result_pure (a : α) : (pure a : Logged ε α).result = .ok a := rfl

@[simp] theorem result_ofExcept (r : Except ε α) : (ofExcept r).result = r := rfl

@[simp] theorem result_note (n : Note) : (note n : Logged ε Unit).result = .ok () := rfl

@[simp] theorem result_noteAll (ns : List Note) :
    (noteAll ns : Logged ε Unit).result = .ok () := rfl

@[simp] theorem result_bind (x : Logged ε α) (f : α → Logged ε β) :
    (x >>= f).result = x.result.bind fun a => (f a).result := by
  show (andThen x f).result = _
  unfold andThen
  cases x.result <;> rfl

end Logged

end LoopNest
