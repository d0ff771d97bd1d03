import LoopNest.Decimal.Reading
/-!
# Tokens of a JSON text

`Scan.step` reads a text character by character. Its state says what the characters since the
last token may become; strings, numbers and words end where their last character does.
-/

namespace LoopNest.Json

/-- A piece of a string: a character as written or a 16-bit unit from an escape. -/
inductive Piece where
  | char (c : Char)
  | unit (code : Nat)

/-- A number: an integer that fits a word of 64 bits, signed or not, or a double; or nothing, if
it is too large. -/
inductive Number where
  | int (value : Int)
  | float (value : Float)
  | tooLarge

inductive Token where
  | arrayOpen
  | arrayClose
  | objectOpen
  | objectClose
  | comma
  | colon
  | null
  | bool (value : Bool)
  | number (value : Number)
  /-- A string; without a value if an escape in it is half a character. -/
  | text (value : Option String)

/-! ## Strings -/

/-- The characters that pieces spell. Units that are no characters must come as a pair. -/
def charsOf : List Piece → Option (List Char)
  | [] => some []
  | .char c :: rest => (charsOf rest).map (c :: ·)
  | .unit u :: rest =>
    if u < 0xD800 ∨ 0xE000 ≤ u then (charsOf rest).map (Char.ofNat u :: ·)
    else
      match rest with
      | .unit v :: rest =>
        if u < 0xDC00 ∧ 0xDC00 ≤ v ∧ v < 0xE000 then
          (charsOf rest).map (Char.ofNat (0x10000 + (u - 0xD800) * 0x400 + (v - 0xDC00)) :: ·)
        else none
      | _ => none

/-- The character that a one-letter escape stands for. -/
def escape? : Char → Option Char
  | '"' => some '"'
  | '\\' => some '\\'
  | '/' => some '/'
  | 'b' => some '\x08'
  | 'f' => some '\x0c'
  | 'n' => some '\n'
  | 'r' => some '\r'
  | 't' => some '\t'
  | _ => none

def hexDigit? (c : Char) : Option Nat :=
  if c.isDigit then some (c.toNat - '0'.toNat)
  else if 'a' ≤ c ∧ c ≤ 'f' then some (c.toNat - 'a'.toNat + 10)
  else if 'A' ≤ c ∧ c ≤ 'F' then some (c.toNat - 'A'.toNat + 10)
  else none

/-! ## Numbers and words -/

/-- A part of a number after its mark: at least one digit. -/
def digitsAfter? (cs : List Char) : Option (List Char × List Char) :=
  let (ds, rest) := Decimal.splitDigits cs
  if ds.isEmpty then none else some (ds, rest)

/-- Digits after a point, if there is one. -/
def fraction? : List Char → Option (Option (List Char) × List Char)
  | '.' :: rest => (digitsAfter? rest).map fun (ds, rest) => (some ds, rest)
  | rest => some (none, rest)

/-- A signed exponent up to the end, if there is one. -/
def exponent? : List Char → Option (Option Int)
  | [] => some none
  | mark :: rest =>
    if mark = 'e' ∨ mark = 'E' then do
      let (negative, rest) := Decimal.splitSign rest
      let (ds, rest) ← digitsAfter? rest
      if rest.isEmpty then
        let e : Int := Decimal.natOfDigits ds
        some (some (if negative then -e else e))
      else none
    else none

/-- A double of a finite size. -/
def finite (x : Float) : Number := if x.isFinite then .float x else .tooLarge

/-- An integer where it fits and is not a negative zero. -/
def integerOf (negative : Bool) (n : Nat) : Number :=
  if negative ∧ 0 < n ∧ n ≤ Nat.pow 2 63 then .int (-n)
  else if !negative ∧ n < Nat.pow 2 64 then .int n
  else finite (if negative then -Decimal.nearest n 0 else Decimal.nearest n 0)

/-- The number that characters spell: no zeros in front, digits on both sides of a point. -/
def number? (cs : List Char) : Option Number := do
  let (negative, cs) :=
    match cs with
    | '-' :: rest => (true, rest)
    | cs => (false, cs)
  let (whole, rest) ← digitsAfter? cs
  if whole.head? = some '0' ∧ whole.length ≠ 1 then none
  let (fraction, rest) ← fraction? rest
  let exponent ← exponent? rest
  match fraction, exponent with
  | none, none => some (integerOf negative (Decimal.natOfDigits whole))
  | _, _ =>
    let fraction := fraction.getD []
    let x := Decimal.nearest (Decimal.natOfDigits (whole ++ fraction))
      (exponent.getD 0 - fraction.length)
    some (finite (if negative then -x else x))

def word? (cs : List Char) : Option Token :=
  if cs = "null".toList then some .null
  else if cs = "true".toList then some (.bool true)
  else if cs = "false".toList then some (.bool false)
  else none

/-! ## The scanner -/

/-- What the characters since the last token may become; the latest character is first. -/
inductive Pending where
  | none
  | text (pieces : List Piece)
  /-- A string after a backslash. -/
  | escape (pieces : List Piece)
  /-- A string inside an escape of four digits, with so many still to come. -/
  | unit (pieces : List Piece) (code missing : Nat)
  | number (chars : List Char)
  | word (chars : List Char)

/-- Tokens so far, latest first, and what is pending. -/
structure Scan where
  tokens : List Token
  pending : Pending

namespace Scan

def start : Scan := ⟨[], .none⟩

/-- A number or word that ends here becomes a token. -/
def close (s : Scan) : Option Scan :=
  match s.pending with
  | .none => some s
  | .number cs => (number? cs.reverse).map fun n => ⟨.number n :: s.tokens, .none⟩
  | .word cs => (word? cs.reverse).map fun t => ⟨t :: s.tokens, .none⟩
  | _ => Option.none

def punctuation? : Char → Option Token
  | '[' => some .arrayOpen
  | ']' => some .arrayClose
  | '\x7b' => some .objectOpen
  | '\x7d' => some .objectClose
  | ',' => some .comma
  | ':' => some .colon
  | _ => Option.none

def isBlank (c : Char) : Bool := c = ' ' ∨ c = '\t' ∨ c = '\n' ∨ c = '\r'

def startsNumber (c : Char) : Bool := c.isDigit || c = '-'

def continuesNumber (c : Char) : Bool :=
  c.isDigit || c = '-' || c = '+' || c = '.' || c = 'e' || c = 'E'

def isLetter (c : Char) : Bool := 'a' ≤ c ∧ c ≤ 'z'

/-- A character between tokens. -/
def outside (s : Scan) (c : Char) : Option Scan :=
  if isBlank c then some ⟨s.tokens, .none⟩
  else if c = '"' then some ⟨s.tokens, .text []⟩
  else if startsNumber c then some ⟨s.tokens, .number [c]⟩
  else if isLetter c then some ⟨s.tokens, .word [c]⟩
  else (punctuation? c).map fun t => ⟨t :: s.tokens, .none⟩

/-- One character further. -/
def step (s : Scan) (c : Char) : Option Scan :=
  match s.pending with
  | .none => s.outside c
  | .text ps =>
    if c = '"' then
      some ⟨.text ((charsOf ps.reverse).map String.ofList) :: s.tokens, .none⟩
    else if c = '\\' then some ⟨s.tokens, .escape ps⟩
    else if c < ' ' then Option.none
    else some ⟨s.tokens, .text (.char c :: ps)⟩
  | .escape ps =>
    if c = 'u' then some ⟨s.tokens, .unit ps 0 4⟩
    else (escape? c).map fun e => ⟨s.tokens, .text (.char e :: ps)⟩
  | .unit ps code missing =>
    (hexDigit? c).map fun h =>
      let code := 16 * code + h
      if missing ≤ 1 then ⟨s.tokens, .text (.unit code :: ps)⟩
      else ⟨s.tokens, .unit ps code (missing - 1)⟩
  | .number cs =>
    if continuesNumber c then some ⟨s.tokens, .number (c :: cs)⟩
    else s.close.bind fun s => s.outside c
  | .word cs =>
    if isLetter c then some ⟨s.tokens, .word (c :: cs)⟩
    else s.close.bind fun s => s.outside c

end Scan

/-- The tokens of a text. -/
def tokens? (text : String) : Option (List Token) := do
  let s ← text.toList.foldlM Scan.step Scan.start
  let s ← s.close
  return s.tokens.reverse

end LoopNest.Json
