import LoopNest.Schedule
import LoopNest.Trace
import LoopNest.Tree.Text
import LoopNest.Problem.Program
import LoopNest.CommandLine.Arguments
/-!
# What a run writes

A run reads a problem and writes its schedule, with the executed instances below it if they are
asked for. The program itself goes to the diagnostic output if asked for, before anything that
may still fail.
-/

namespace LoopNest

/-- An executed instance on a line of its own. -/
def Event.line (e : Event) : String :=
  let point := " ".intercalate (e.point.map fun pair => pair.1 ++ "=" ++ toString pair.2)
  let index := ", ".intercalate (e.index.map fun v => toString v)
  "  e" ++ toString e.equation ++ " @ " ++ point ++ ": " ++ e.tensor ++ "[" ++ index ++ "]\n"

namespace CommandLine

/-- Why a run fails after its arguments have been read. -/
inductive RunError where
  | problem (error : ProblemError)
  | schedule (error : ScheduleError)
  | trace (error : TraceError)
deriving DecidableEq, Repr

def RunError.message : RunError → String
  | .problem error => "problem parse failed: " ++ error.message
  | .schedule error => "scheduling failed: " ++ error.message
  | .trace error => "trace failed: " ++ error.message

/-- The executed instances below a heading, if they are asked for. -/
def traceText (a : Arguments) (p : Program) (tree : ScheduleTree) : Except RunError String :=
  if a.trace then do
    let events ← (tree.events p.dims a.bindings).mapError .trace
    return "\nTrace:\n" ++ String.join (events.map Event.line)
  else return ""

/-- The schedule of a program as text. -/
def scheduleText (a : Arguments) (p : Program) : Except RunError String := do
  let tree ← (p.schedule a.options).result.mapError .schedule
  let trace ← traceText a p tree
  return tree.text p.dims ++ trace

/-- What a run writes. -/
structure Report where
  diagnostics : String
  /-- The text for the output. -/
  result : Except RunError String

/-- The report on the text of a problem. -/
def report (a : Arguments) (source : String) : Report :=
  match Program.ofText source with
  | .error e => ⟨"", .error (.problem e)⟩
  | .ok p => ⟨if a.emitProgram then p.text ++ "\n" else "", scheduleText a p⟩

end CommandLine

end LoopNest
