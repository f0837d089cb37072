import FilterQuery.Value.Binary
import FilterQuery.Value.DateTime
import FilterQuery.Value.Decimal
import FilterQuery.Value.Duration
import FilterQuery.Value.Uuid

namespace FilterQuery

/-- The family of values that a property, or each element of it, is declared to hold. -/
inductive Kind where
  | bool
  | char
  | integer (type : IntegerType)
  | float (format : BinaryFormat)
  | decimal
  | string
  | dateTime
  | duration
  | uuid
  deriving DecidableEq, Repr

namespace Kind

def name : Kind → String
  | .bool => "bool"
  | .char => "char"
  | .integer t => t.name
  | .float f => f.name
  | .decimal => "decimal"
  | .string => "string"
  | .dateTime => "date/time"
  | .duration => "duration"
  | .uuid => "uuid"

/-- Whether values of the kind can be compared with a bound. -/
def isOrderable : Kind → Bool
  | .bool | .char | .string | .uuid => false
  | _ => true

end Kind

/-- One value of some kind. Integers with and without a sign are told apart, their widths are
not. -/
inductive Scalar where
  | bool (b : Bool)
  | char (c : Char)
  | int (n : Int)
  | uint (n : Nat)
  | float (format : BinaryFormat) (x : Binary)
  | decimal (d : Decimal)
  | string (s : String)
  | dateTime (t : DateTime)
  | duration (d : Duration)
  | uuid (u : Uuid)
  deriving DecidableEq, Repr

namespace Scalar

/-- Compares two values of the same variety; other values, and floats that are not numbers, do
not compare. -/
def compare : Scalar → Scalar → Option Ordering
  | .bool a, .bool b => some (Ord.compare a b)
  | .char a, .char b => some (Ord.compare a b)
  | .int a, .int b => some (Ord.compare a b)
  | .uint a, .uint b => some (Ord.compare a b)
  | .float f a, .float g b => if f = g then a.compare f b else none
  | .decimal a, .decimal b => some (a.compare b)
  | .string a, .string b => some (Ord.compare a b)
  | .dateTime a, .dateTime b => some (a.compare b)
  | .duration a, .duration b => some (Ord.compare a.nanos b.nanos)
  | .uuid a, .uuid b => some (Ord.compare a.value b.value)
  | _, _ => none

/-- Equality as values, under which 1.0 equals 1.00 and a moment equals itself on another
clock. -/
def equals (a b : Scalar) : Bool :=
  a.compare b == some .eq

def optionalEquals : Option Scalar → Option Scalar → Bool
  | none, none => true
  | some a, some b => a.equals b
  | _, _ => false

def string? : Scalar → Option String
  | .string s => some s
  | _ => none

end Scalar

end FilterQuery
