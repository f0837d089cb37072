import FilterQuery.Query.Literal
import FilterQuery.Value.Binary.Text
import FilterQuery.Value.DateTime.Text
import FilterQuery.Value.Scalar

namespace FilterQuery

/-- Reads the text of a literal as a value of a kind. -/
def Kind.decode (k : Kind) (s : String) : Except DecodeError Scalar :=
  let cs := s.toList
  match k with
  | .bool =>
    if Text.sameIgnoringCase s "true" then .ok (.bool true)
    else if Text.sameIgnoringCase s "false" then .ok (.bool false)
    else .error .notBool
  | .char =>
    match cs with
    | [c] => .ok (.char c)
    | _ => .error .notOneCharacter
  | .integer t =>
    (Integer.read t cs).map fun n => if t.signed then .int n else .uint n.toNat
  | .float f => (Binary.read f cs).map (.float f)
  | .decimal =>
    match Decimal.read? cs with
    | some d => .ok (.decimal d)
    | none => .error .invalidDecimal
  | .string => .ok (.string s)
  | .dateTime =>
    match DateTime.read? cs with
    | some t => .ok (.dateTime t)
    | none => .error .invalidDateTime
  | .duration => (Duration.read cs).map .duration
  | .uuid =>
    match Uuid.read? cs with
    | some u => .ok (.uuid u)
    | none => .error .invalidUuid

namespace Scalar

def encode : Scalar → String
  | .bool b => if b then "true" else "false"
  | .char c => String.ofList [c]
  | .int n => String.ofList (Integer.render n)
  | .uint n => String.ofList (Text.digits n)
  | .float f x => String.ofList (x.render Binary.literalLayout f)
  | .decimal d => String.ofList d.render
  | .string s => s
  | .dateTime t => String.ofList t.render
  | .duration d => String.ofList d.render
  | .uuid u => String.ofList u.render

def toAtom : Option Scalar → Atom
  | some v => .text v.encode
  | none => .null

end Scalar

end FilterQuery
