import FilterQuery.Record.Field
import FilterQuery.Value.Codec

namespace FilterQuery.Json

/-- A character as it stands inside a string: some in a short escape, other control characters in
an escape of four digits. -/
def escapeChar (c : Char) : List Char :=
  match c with
  | '"' => ['\\', '"']
  | '\\' => ['\\', '\\']
  | '\x08' => ['\\', 'b']
  | '\x0c' => ['\\', 'f']
  | '\n' => ['\\', 'n']
  | '\x0d' => ['\\', 'r']
  | '\t' => ['\\', 't']
  | _ => if c.toNat < 0x20 then '\\' :: 'u' :: Uuid.hexDigits 4 c.toNat else [c]

def quote (s : String) : String :=
  String.ofList ('"' :: s.toList.flatMap escapeChar ++ ['"'])

/-- Numbers have an exponent, always with its sign, from 1e13 on and below 1e-6. -/
def layout : Binary.Layout where
  tie := .even
  positional _ _ places := -6 < places && places ≤ 13
  plus := true

/-- Booleans and numbers stand for themselves, with null for numbers that are not finite; all
else is a string with the text of its literal. -/
def renderScalar (v : Scalar) : String :=
  match v with
  | .bool _ | .int _ | .uint _ => v.encode
  | .float f x =>
    if f.infinity ≤ x.magnitude then "null" else String.ofList (x.render layout f)
  | _ => quote v.encode

def renderOptional : Option Scalar → String
  | none => "null"
  | some v => renderScalar v

def renderArray (items : List String) : String :=
  "[" ++ String.intercalate "," items ++ "]"

def renderFieldValue : FieldValue → String
  | .null => "null"
  | .scalar v => renderScalar v
  | .sequence items => renderArray (items.map renderOptional)

def renderObject (members : List (String × String)) : String :=
  "\x7b" ++ String.intercalate "," (members.map fun (name, value) => quote name ++ ":" ++ value) ++
    "\x7d"

end FilterQuery.Json
