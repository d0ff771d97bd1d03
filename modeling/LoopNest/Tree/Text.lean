import LoopNest.Expr.Text
import LoopNest.Tree.Basic
/-!
# Schedule trees as text

One line per node, indented by its depth, then the parameters with their defaults.
-/

namespace LoopNest

/-- Two blanks per level. -/
def indent (depth : Nat) : String := String.ofList (List.replicate (2 * depth) ' ')

namespace Node

mutual

/-- The lines of a node and of what is inside it. -/
def text (t : DimTable) (depth : Nat) : Node → String
  | .loop l body =>
    indent depth ++ "for " ++ t.name l.dim ++ " in " ++ l.bounds.text t ++ " " ++
      l.direction.text ++ " <" ++ l.properties.text ++ ">\n" ++ textOf t (depth + 1) body
  | .guard e _ body => indent depth ++ "if " ++ e.text t ++ "\n" ++ textOf t (depth + 1) body
  | .statement s =>
    indent depth ++ "e" ++ toString s.equation ++ ": " ++ s.lhs.text t ++ " = " ++ s.rhs.text t ++
      "\n"

def textOf (t : DimTable) (depth : Nat) : List Node → String
  | [] => ""
  | n :: ns => text t depth n ++ textOf t depth ns

end

end Node

/-- A parameter, with its default if it has one. -/
def Parameter.line (q : Parameter) : String :=
  match q.default? with
  | some v => "  " ++ q.name ++ " = " ++ toString v ++ "\n"
  | none => "  " ++ q.name ++ "\n"

/-- The schedule for people to read. -/
def ScheduleTree.text (t : DimTable) (tree : ScheduleTree) : String :=
  let parameters :=
    if tree.parameters.isEmpty then ""
    else "\nParameters:\n" ++ String.join (tree.parameters.map Parameter.line)
  Node.textOf t 0 tree.roots ++ parameters

end LoopNest
