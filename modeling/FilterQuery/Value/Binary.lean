namespace FilterQuery

/-- The two binary interchange formats. -/
inductive BinaryFormat where
  | binary32
  | binary64
  deriving DecidableEq, Repr

namespace BinaryFormat

def exponentBits : BinaryFormat → Nat
  | .binary32 => 8
  | .binary64 => 11

def fractionBits : BinaryFormat → Nat
  | .binary32 => 23
  | .binary64 => 52

def magnitudeBits (f : BinaryFormat) : Nat :=
  f.exponentBits + f.fractionBits

/-- The least positive value of the format is one divided by two to this power. -/
def scale : BinaryFormat → Nat
  | .binary32 => 149
  | .binary64 => 1074

/-- The magnitude of the infinities; those above it are not numbers. -/
def infinity (f : BinaryFormat) : Nat :=
  (Nat.pow 2 f.exponentBits - 1) * Nat.pow 2 f.fractionBits

/-- The value of a magnitude, counted in least positive values. Infinity counts as the power of
two that follows the greatest finite value. -/
def units (f : BinaryFormat) (magnitude : Nat) : Nat :=
  let exponent := magnitude / Nat.pow 2 f.fractionBits
  let fraction := magnitude % Nat.pow 2 f.fractionBits
  if exponent = 0 then fraction
  else (Nat.pow 2 f.fractionBits + fraction) * Nat.pow 2 (exponent - 1)

def name : BinaryFormat → String
  | .binary32 => "f32"
  | .binary64 => "f64"

end BinaryFormat

/-- A floating-point number by its bits: the sign, and the exponent and fraction as one number. -/
structure Binary where
  negative : Bool
  magnitude : Nat
  deriving DecidableEq, Repr

namespace Binary

def isNaN (f : BinaryFormat) (x : Binary) : Bool :=
  f.infinity < x.magnitude

/-- The magnitude with its sign, which orders the numbers of a format; both zeros are 0. -/
def rank (x : Binary) : Int :=
  if x.negative then -x.magnitude else x.magnitude

/-- A value that is not a number compares with nothing. -/
def compare (f : BinaryFormat) (x y : Binary) : Option Ordering :=
  if x.isNaN f || y.isNaN f then none else some (Ord.compare x.rank y.rank)

end Binary

end FilterQuery
