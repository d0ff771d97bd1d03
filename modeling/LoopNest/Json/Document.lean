import LoopNest.Json.Value
import LoopNest.Json.Token
/-!
# A JSON text as a value

`Json.parse?` puts tokens together with a stack of the arrays and objects that are still open. A
text is one value with nothing but blanks around it.
-/

namespace LoopNest.Json

/-- An array or object that is still open, latest item first. A key without a value makes the
whole object denote nothing. -/
inductive Frame where
  | array (items : List Json)
  | object (fields : List (Option String × Json))
  /-- An object whose next value belongs to a key. -/
  | field (fields : List (Option String × Json)) (key : Option String)

/-- What may come next. -/
inductive Expected where
  | value
  /-- A value, or the end of an array just opened. -/
  | firstItem
  | key
  /-- A key, or the end of an object just opened. -/
  | firstKey
  | colon
  | separator
  | nothing (result : Json)

/-- The stack of open arrays and objects, innermost first, and what may come next. -/
structure Assembly where
  stack : List Frame
  expected : Expected

/-- The object of fields of which each has a key. -/
def objectOf (fields : List (Option String × Json)) : Json :=
  match fields.mapM fun field => field.1.map fun key => (key, field.2) with
  | some fields => .object fields
  | none => .void

namespace Assembly

def start : Assembly := ⟨[], .value⟩

/-- A finished value goes into the innermost open array or object. -/
def put (value : Json) : List Frame → Option Assembly
  | [] => some ⟨[], .nothing value⟩
  | .array items :: outer => some ⟨.array (value :: items) :: outer, .separator⟩
  | .field fields key :: outer => some ⟨.object ((key, value) :: fields) :: outer, .separator⟩
  | .object _ :: _ => none

/-- A token where a value is expected. -/
def value (stack : List Frame) : Token → Option Assembly
  | .null => put .null stack
  | .bool b => put (.bool b) stack
  | .number (.int v) => put (.int v) stack
  | .number (.float x) => put (.float x) stack
  | .number .tooLarge => put .void stack
  | .text (some s) => put (.text s) stack
  | .text none => put .void stack
  | .arrayOpen => some ⟨.array [] :: stack, .firstItem⟩
  | .objectOpen => some ⟨.object [] :: stack, .firstKey⟩
  | _ => none

/-- The end of the innermost open array or object. -/
def close : List Frame → Token → Option Assembly
  | .array items :: outer, .arrayClose => put (.array items.reverse) outer
  | .object fields :: outer, .objectClose => put (objectOf fields.reverse) outer
  | _, _ => none

def key : List Frame → Token → Option Assembly
  | .object fields :: outer, .text k => some ⟨.field fields k :: outer, .colon⟩
  | _, _ => none

/-- One token further. -/
def step (a : Assembly) (t : Token) : Option Assembly :=
  match a.expected, t with
  | .value, t => value a.stack t
  | .firstItem, .arrayClose => close a.stack t
  | .firstItem, t => value a.stack t
  | .key, t => key a.stack t
  | .firstKey, .objectClose => close a.stack t
  | .firstKey, t => key a.stack t
  | .colon, .colon => some ⟨a.stack, .value⟩
  | .colon, _ => none
  | .separator, .comma =>
    match a.stack with
    | .array _ :: _ => some ⟨a.stack, .value⟩
    | .object _ :: _ => some ⟨a.stack, .key⟩
    | _ => none
  | .separator, t => close a.stack t
  | .nothing _, _ => none

end Assembly

/-- The value of a JSON text. -/
def parse? (text : String) : Option Json := do
  let tokens ← tokens? text
  let a ← tokens.foldlM Assembly.step Assembly.start
  match a.expected with
  | .nothing result => some result
  | _ => none

end LoopNest.Json
