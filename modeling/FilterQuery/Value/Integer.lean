import FilterQuery.Text.Digits
import FilterQuery.Value.DecodeError

namespace FilterQuery

inductive Width where
  | w8
  | w16
  | w32
  | w64
  deriving DecidableEq, Repr

def Width.bits : Width → Nat
  | .w8 => 8
  | .w16 => 16
  | .w32 => 32
  | .w64 => 64

/-- The integers of one width, with or without a sign. -/
structure IntegerType where
  signed : Bool
  width : Width
  deriving DecidableEq, Repr

namespace IntegerType

/-- The greatest distance from zero that a negative value can have. -/
def depth (t : IntegerType) : Nat :=
  if t.signed then Nat.pow 2 (t.width.bits - 1) else 0

def height (t : IntegerType) : Nat :=
  if t.signed then Nat.pow 2 (t.width.bits - 1) - 1 else Nat.pow 2 t.width.bits - 1

/-- Whether a number is a value of the type. -/
def Holds (t : IntegerType) (n : Int) : Prop :=
  -(t.depth : Int) ≤ n ∧ n ≤ t.height

instance (t : IntegerType) (n : Int) : Decidable (t.Holds n) :=
  inferInstanceAs (Decidable (_ ∧ _))

def name (t : IntegerType) : String :=
  (if t.signed then "i" else "u") ++ toString t.width.bits

end IntegerType

namespace Integer

def render (n : Int) : List Char :=
  if n < 0 then '-' :: Text.digits n.natAbs else Text.digits n.natAbs

/-- Reads digits after the number `n`, up to a greatest value. The first character that is no
digit or that makes the number too great is the one reported. -/
def readDigits (limit : Nat) (overflow : DecodeError) :
    Nat → List Char → Except DecodeError Nat
  | n, [] => .ok n
  | n, c :: cs =>
    if !c.isDigit then .error .invalidDigit
    else
      let n := 10 * n + Text.digitValue c
      if n ≤ limit then readDigits limit overflow n cs else .error overflow

/-- A sign needs digits after it, and a minus sign a type that has negative values. -/
def read (t : IntegerType) : List Char → Except DecodeError Int
  | [] => .error .emptyInteger
  | ['+'] | ['-'] => .error .invalidDigit
  | '+' :: cs => (readDigits t.height .integerTooLarge 0 cs).map Int.ofNat
  | '-' :: cs =>
    if t.signed then (readDigits t.depth .integerTooSmall 0 cs).map fun n => -Int.ofNat n
    else .error .invalidDigit
  | cs => (readDigits t.height .integerTooLarge 0 cs).map Int.ofNat

end Integer

end FilterQuery
