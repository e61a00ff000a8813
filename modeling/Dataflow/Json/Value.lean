/-!
# JSON values

A JSON text denotes a `Value`. Texts inside it are sequences of characters and of 16-bit units that
were written as escapes, since such units need not make up characters; numbers other than natural
numbers are kept as they are written.

* `Piece`, `Text`, `Value`: the data.
* `Text.ofString`, `Text.toString?`: texts made of characters only.
* `Value.render`: the compact written form, without a blank.
-/

namespace Dataflow.Json

/-! ## Data -/

/-- A part of a text. -/
inductive Piece
  | char (c : Char)
  /-- A 16-bit unit, written with its number. -/
  | unit (n : Nat)
  deriving DecidableEq, Repr

abbrev Text := List Piece

/-- A number. -/
inductive Number
  | natural (n : Nat)
  /-- Any other number, as it is written. -/
  | written (chars : List Char)
  deriving DecidableEq, Repr

/-- A JSON value. The members of an object keep their order and need not differ in name. -/
inductive Value
  | null
  | bool (b : Bool)
  | number (n : Number)
  | text (t : Text)
  | array (items : List Value)
  | object (members : List (Text × Value))

/-! ## Texts -/

namespace Text

def ofString (s : String) : Text := s.toList.map .char

/-- The first unit of a pair. -/
def isHigh (n : Nat) : Bool := 0xD800 ≤ n && n < 0xDC00

/-- The second unit of a pair. -/
def isLow (n : Nat) : Bool := 0xDC00 ≤ n && n < 0xE000

def ofPair (high low : Nat) : Char :=
  Char.ofNat (0x10000 + (high - 0xD800) * 0x400 + (low - 0xDC00))

/-- The characters of a text. A unit that belongs to a pair but stands alone has none. -/
def chars? : Text → Option (List Char)
  | [] => some []
  | .char c :: rest => (chars? rest).map (c :: ·)
  | .unit high :: .unit low :: rest =>
    if isHigh high then
      if isLow low then (chars? rest).map (ofPair high low :: ·) else none
    else if isLow high then none
    else (chars? (.unit low :: rest)).map (Char.ofNat high :: ·)
  | .unit n :: rest =>
    if isHigh n || isLow n then none else (chars? rest).map (Char.ofNat n :: ·)

def toString? (t : Text) : Option String := (chars? t).map String.ofList

end Text

/-! ## Written form -/

def hexUnit (n : Nat) : List Char :=
  [Nat.digitChar (n / 4096 % 16), Nat.digitChar (n / 256 % 16), Nat.digitChar (n / 16 % 16),
   Nat.digitChar (n % 16)]

def renderUnit (n : Nat) : List Char := '\\' :: 'u' :: hexUnit n

/-- The written form of a character: quote, backslash and control characters are escaped. -/
def renderChar (c : Char) : List Char :=
  if c = '"' then ['\\', '"']
  else if c = '\\' then ['\\', '\\']
  else if c.toNat = 8 then ['\\', 'b']
  else if c.toNat = 9 then ['\\', 't']
  else if c.toNat = 10 then ['\\', 'n']
  else if c.toNat = 12 then ['\\', 'f']
  else if c.toNat = 13 then ['\\', 'r']
  else if c.toNat < 32 then renderUnit c.toNat
  else [c]

def Piece.render : Piece → List Char
  | .char c => renderChar c
  | .unit n => renderUnit n

def Text.render (t : Text) : List Char := '"' :: t.flatMap Piece.render ++ ['"']

def Number.render : Number → List Char
  | .natural n => Nat.toDigits 10 n
  | .written chars => chars

/-- The members of a list with a comma between neighbours. -/
def commaSeparated : List (List Char) → List Char
  | [] => []
  | [item] => item
  | item :: rest => item ++ ',' :: commaSeparated rest

mutual

def Value.renderChars : Value → List Char
  | .null => "null".toList
  | .bool true => "true".toList
  | .bool false => "false".toList
  | .number n => n.render
  | .text t => t.render
  | .array items => '[' :: commaSeparated (renderItems items) ++ [']']
  | .object members => '{' :: commaSeparated (renderMembers members) ++ ['}']

def renderItems : List Value → List (List Char)
  | [] => []
  | item :: rest => item.renderChars :: renderItems rest

def renderMembers : List (Text × Value) → List (List Char)
  | [] => []
  | (name, value) :: rest => (name.render ++ ':' :: value.renderChars) :: renderMembers rest

end

def Value.render (v : Value) : String := String.ofList v.renderChars

end Dataflow.Json
