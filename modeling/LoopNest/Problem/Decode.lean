import LoopNest.Word
import LoopNest.Json.Document
import LoopNest.Problem.Basic
/-!
# Problems from JSON

The form is strict: a key that is unknown or comes twice is a fault wherever it is not said to be
skipped, and so is a number of the wrong kind. `room` counts how many arrays and objects may
still be opened; it bounds the depth of what is accepted and the recursion alike.

A record may also be written as the array of its fields, where trailing ones may be left out if
they have a default. Dimensions and indices are taken in whole before their form is looked at, so
nothing inside them may be void or too deep, skipped keys included.
-/

namespace LoopNest.Problem

/-! ## Pieces -/

def text? : Json → Option String
  | .text s => some s
  | _ => none

/-- An integer of a given range. -/
def intWithin? (lo hi : Int) : Json → Option Int
  | .int v => if lo ≤ v ∧ v ≤ hi then some v else none
  | _ => none

/-- An integer that fits a signed word. -/
def word? : Json → Option Int := intWithin? Word.least Word.greatest

/-- A size: a natural number of at most 64 bits. -/
def size? (j : Json) : Option Nat := (intWithin? 0 18446744073709551615 j).map Int.toNat

/-- A number of buffer slots: a natural number of at most 32 bits. -/
def slots? (j : Json) : Option Nat := (intWithin? 0 4294967295 j).map Int.toNat

/-- Any number as a double. -/
def double? : Json → Option Float
  | .float x => some x
  | .int v =>
    let x := Decimal.nearest v.natAbs 0
    some (if v < 0 then -x else x)
  | _ => none

/-- An array of values of one form. -/
def listOf? {α : Type} (read : Json → Option α) : Json → Option (List α)
  | .array items => items.mapM read
  | _ => none

/-- A value that must be there. -/
def required {α : Type} (read : Json → Option α) (value : Option Json) : Option α :=
  value.bind read

/-- A value that may be left out. -/
def defaulted {α : Type} (default : α) (read : Json → Option α) : Option Json → Option α
  | none => some default
  | some j => read j

/-- A value that may be left out or null. -/
def nullable {α : Type} (read : Json → Option α) : Option Json → Option (Option α)
  | none => some none
  | some .null => some none
  | some j => (read j).map some

/-- The values of a record's fields, from the array of them. -/
def fieldsOfArray? (names : List String) (items : List Json) : Option (List (Option Json)) :=
  if items.length ≤ names.length then
    some (items.map some ++ List.replicate (names.length - items.length) none)
  else none

/-- The values of a record's fields; other keys are skipped. -/
def openRecord? (names : List String) : Json → Option (List (Option Json))
  | .object fields => names.mapM fun name => Json.single? name fields
  | .array items => fieldsOfArray? names items
  | _ => none

/-- The values of a record's fields; there are no other keys. -/
def closedRecord? (names : List String) : Json → Option (List (Option Json))
  | .object fields =>
    if fields.all fun field => names.contains field.1 then openRecord? names (.object fields)
    else none
  | j => openRecord? names j

/-! ## Expressions -/

/-- Operators written with an array of exactly two operands. -/
def binaryTag? : String → Option BinOp
  | "sub" => some .sub
  | "div" => some .div
  | "floor_div" => some .floorDiv
  | "mod" => some .mod
  | _ => none

def compareTag? : String → Option CmpOp
  | "lt" => some .lt
  | "le" => some .le
  | "gt" => some .gt
  | "ge" => some .ge
  | "eq" => some .eq
  | "ne" => some .ne
  | _ => none

mutual

/-- An expression: an object of one key, which tells its form. -/
def term? : Nat → Json → Option Term
  | room + 1, .object [(tag, body)] =>
    match tag with
    | "int" => (word? body).map .int
    | "float" => (double? body).map .float
    | "symbol" => (text? body).map .symbol
    | "dim" => (text? body).map .dim
    | "access" => (access? room body).map fun a => .access a.1 a.2
    | "neg" => (term? room body).map .neg
    | "add" => (terms? room body).map .sum
    | "mul" => (terms? room body).map .product
    | "and" => (terms? room body).map .and
    | "call" => call? room body
    | tag =>
      match binaryTag? tag, compareTag? tag, terms? room body with
      | some op, _, some [a, b] => some (.binary op a b)
      | none, some op, some [a, b] => some (.compare op a b)
      | _, _, _ => none
  | _, _ => none

def terms? : Nat → Json → Option (List Term)
  | room + 1, .array items => items.mapM fun item => term? room item
  | _, _ => none

/-- A function application; keys other than the two are skipped. -/
def call? : Nat → Json → Option Term
  | room + 1, body =>
    match openRecord? ["function", "args"] body with
    | some [function, args] => do
      let function ← required text? function
      let args ← defaulted [] (fun j => terms? room j) args
      return .call function args
    | _ => none
  | 0, _ => none

/-- A tensor and its indices. -/
def access? : Nat → Json → Option (String × List Place)
  | room + 1, body =>
    match closedRecord? ["tensor", "indices"] body with
    | some [tensor, indices] => do
      let tensor ← required text? tensor
      let indices ← required (fun j => places? room j) indices
      return (tensor, indices)
    | _ => none
  | 0, _ => none

def places? : Nat → Json → Option (List Place)
  | room + 1, .array items => items.mapM fun item =>
    if item.sound room then place? room item else none
  | _, _ => none

/-- An index: a dimension, or the array of a dimension and how far from it. -/
def place? : Nat → Json → Option Place
  | _, .text dim => some (.fixed dim 0)
  | room + 1, .array [.text dim, shift] =>
    match word? shift with
    | some k => some (.fixed dim k)
    | none => (term? room shift).map (.symbolic dim)
  | _, _ => none

end

/-! ## Dimensions -/

def sideNamed? : String → Option Side
  | "left" => some .left
  | "right" => some .right
  | "middle" => some .middle
  | _ => none

/-- A side: its name, or an object of its name with nothing under it. -/
def side? : Json → Option Side
  | .text name => sideNamed? name
  | .object [(name, .null)] => sideNamed? name
  | .object [(name, .object [])] => sideNamed? name
  | _ => none

/-- The kinds of dimensions in the order by which they may be numbered. -/
def kindNames : List String := ["space", "time", "stepping", "sub", "conditional"]

/-- A kind: its name or its number. -/
def kind? : Json → Option String
  | .text name => if kindNames.contains name then some name else none
  | .int n => if 0 ≤ n then kindNames[n.toNat]? else none
  | _ => none

/-- The fields that belong to a kind; any others are skipped. -/
def origin? (room : Nat) (kind : String) (fields : List (String × Json)) : Option Origin := do
  match kind with
  | "space" => return .space (← nullable size? (← Json.single? "size" fields))
  | "time" => return .time (← nullable size? (← Json.single? "size" fields))
  | "stepping" =>
    let parent ← required text? (← Json.single? "parent" fields)
    return .stepping parent (← required slots? (← Json.single? "modulo" fields))
  | "sub" =>
    let parent ← required text? (← Json.single? "parent" fields)
    let side ← required side? (← Json.single? "side" fields)
    let left ← defaulted 0 word? (← Json.single? "left" fields)
    return .sub parent side left (← defaulted 0 word? (← Json.single? "right" fields))
  | "conditional" =>
    let parent ← required text? (← Json.single? "parent" fields)
    let factor ← nullable word? (← Json.single? "factor" fields)
    let condition ← nullable (term? room) (← Json.single? "condition" fields)
    return .conditional parent factor condition
  | _ => none

/-- A dimension: an object, taken in whole. -/
def dimension? (room : Nat) (j : Json) : Option DimensionDecl :=
  match j with
  | .object fields => do
    if j.sound room then
      let name ← required text? (← Json.single? "name" fields)
      let kind ← required kind? (← Json.single? "kind" fields)
      return ⟨name, ← origin? (room - 1) kind fields⟩
    else none
  | _ => none

/-! ## Equations and problems -/

/-- Pairs in ascending order of keys; of a key that comes twice, the last value holds. -/
def sortedPairs (pairs : List (String × String)) : List (String × String) :=
  (SortedSet.ofList (pairs.map Prod.fst)).filterMap fun key =>
    (pairs.reverse.find? fun pair => pair.1 == key)

/-- An object of texts. -/
def pairs? : Json → Option (List (String × String))
  | .object fields => (fields.mapM fun field => (text? field.2).map fun s => (field.1, s)).map
      sortedPairs
  | _ => none

def equation? (room : Nat) (j : Json) : Option EquationDecl :=
  match closedRecord? ["lhs", "rhs", "subdomain", "implicit_dims"] j with
  | some [lhs, rhs, subdomain, implicit] => do
    let lhs ← required (access? (room - 1)) lhs
    let rhs ← required (term? (room - 1)) rhs
    let subdomain ← defaulted [] pairs? subdomain
    let implicit ← defaulted [] (listOf? text?) implicit
    return ⟨lhs.1, lhs.2, rhs, subdomain, implicit⟩
  | _ => none

/-- A problem from a JSON value that may nest `room` deep. -/
def ofJson? (room : Nat) (j : Json) : Option Problem :=
  match closedRecord? ["dimensions", "scalars", "equations"] j with
  | some [dimensions, scalars, equations] => do
    let dimensions ← defaulted [] (listOf? (dimension? (room - 2))) dimensions
    let scalars ← defaulted [] (listOf? text?) scalars
    let equations ← defaulted [] (listOf? (equation? (room - 2))) equations
    return ⟨dimensions, scalars, equations⟩
  | _ => none

/-- The problem that a text describes, if it has the right form. -/
def ofText? (text : String) : Option Problem := do
  ofJson? Json.depthLimit (← Json.parse? text)

end LoopNest.Problem
