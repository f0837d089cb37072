import FilterQuery.Json.Token

namespace FilterQuery

inductive Json where
  | null
  | bool (b : Bool)
  | number (n : Json.Number)
  | string (points : List Nat)
  | array (items : List Json)
  | object (members : List (List Nat × Json))
  deriving Repr

namespace Json

/-- An array or object that is not complete, with its last element first. In an object a value is
missing after a name. -/
inductive Frame where
  | array (before : List Json)
  | object (before : List (List Nat × Json)) (name : List Nat)

mutual

/-- Reads a value where one must stand, and then what completes the containers around it. -/
def readValue? (around : List Frame) : List Token → Option Json
  | .null :: ts => readAfter? .null around ts
  | .bool b :: ts => readAfter? (.bool b) around ts
  | .number n :: ts => readAfter? (.number n) around ts
  | .string points :: ts => readAfter? (.string points) around ts
  | .openArray :: .closeArray :: ts => readAfter? (.array []) around ts
  | .openArray :: ts => readValue? (.array [] :: around) ts
  | .openObject :: .closeObject :: ts => readAfter? (.object []) around ts
  | .openObject :: ts => readMember? [] around ts
  | _ => none

def readMember? (before : List (List Nat × Json)) (around : List Frame) :
    List Token → Option Json
  | .string name :: .colon :: ts => readValue? (.object before name :: around) ts
  | _ => none

/-- Puts a complete value into the innermost container, and reads on. -/
def readAfter? (v : Json) : (around : List Frame) → List Token → Option Json
  | [], [] => some v
  | .array before :: around, .comma :: ts => readValue? (.array (v :: before) :: around) ts
  | .array before :: around, .closeArray :: ts =>
    readAfter? (.array (v :: before).reverse) around ts
  | .object before name :: around, .comma :: ts => readMember? ((name, v) :: before) around ts
  | .object before name :: around, .closeObject :: ts =>
    readAfter? (.object ((name, v) :: before).reverse) around ts
  | _, _ => none

end

/-- The value that a text stands for. -/
def parse? (s : String) : Option Json := do
  readValue? [] (← tokens? s.toList)

def isHighSurrogate (point : Nat) : Bool := 0xD800 ≤ point && point < 0xDC00

def isLowSurrogate (point : Nat) : Bool := 0xDC00 ≤ point && point < 0xE000

/-- The text that code points stand for. Two halves of a surrogate pair are one character, and a
half that stands alone is none. -/
def decodePoints? : List Nat → Option (List Char)
  | [] => some []
  | [p] => if isHighSurrogate p || isLowSurrogate p then none else some [Char.ofNat p]
  | p :: q :: ps =>
    if isHighSurrogate p && isLowSurrogate q then
      (decodePoints? ps).map
        (Char.ofNat (0x10000 + (p - 0xD800) * 0x400 + (q - 0xDC00)) :: ·)
    else if isHighSurrogate p || isLowSurrogate p then none
    else (decodePoints? (q :: ps)).map (Char.ofNat p :: ·)

def textOf? (points : List Nat) : Option String :=
  (decodePoints? points).map String.ofList

def string? : Json → Option String
  | .string points => textOf? points
  | _ => none

def integer? : Json → Option Int
  | .number n => n.integer?
  | _ => none

def binary32? : Json → Option Binary
  | .number n => n.binary32?
  | _ => none

end Json

end FilterQuery
