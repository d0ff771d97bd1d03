/-!
# JSON values

A value of a JSON text. Integers are kept apart from other numbers: a number written without
fraction and exponent that fits a word of 64 bits, signed or not, is an integer, except `-0`.
Some grammatical texts denote nothing, such as an escape that is no character or a number beyond
the doubles: they are `Json.void`. What depends on such a text, or nests too deep, is not
`Json.sound`; whoever skips a value need not ask.
-/

namespace LoopNest

inductive Json where
  | null
  | bool (value : Bool)
  | int (value : Int)
  | float (value : Float)
  | text (value : String)
  | array (items : List Json)
  | object (fields : List (String × Json))
  | void
deriving Inhabited

namespace Json

/-- Arrays and objects nest at most this deep. -/
def depthLimit : Nat := 127

/-- Everything inside denotes something and nests at most `room` deep. -/
def sound : Nat → Json → Bool
  | _, .void => false
  | 0, .array _ | 0, .object _ => false
  | room + 1, .array items => items.all fun item => item.sound room
  | room + 1, .object fields => fields.all fun field => field.2.sound room
  | _, _ => true

/-- The values under a key, in order. -/
def valuesOf (key : String) (fields : List (String × Json)) : List Json :=
  (fields.filter fun field => field.1 == key).map Prod.snd

/-- The value under a key that occurs once; a second occurrence is a fault. -/
def single? (key : String) (fields : List (String × Json)) : Option (Option Json) :=
  match valuesOf key fields with
  | [] => some none
  | [value] => some (some value)
  | _ => none

end Json

end LoopNest
