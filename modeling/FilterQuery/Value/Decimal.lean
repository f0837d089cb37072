import FilterQuery.Text.Digits
import FilterQuery.Value.DecodeError
import FilterQuery.Value.Integer

namespace FilterQuery

/-- The number `digits / 10 ^ scale`, kept with the scale that it was written with. -/
structure Decimal where
  digits : Int
  scale : Int
  deriving DecidableEq, Repr

namespace Decimal

/-- The power of ten that a nonzero number is just below. -/
def order (d : Decimal) : Int :=
  (Text.digits d.digits.natAbs).length - d.scale

/-- Compares two numbers by value. Numbers of one sign whose first digits stand at different
powers of ten need no common scale. -/
def compare (a b : Decimal) : Ordering :=
  if a.digits.sign ≠ b.digits.sign then Ord.compare a.digits.sign b.digits.sign
  else if a.digits = 0 then .eq
  else if a.order ≠ b.order then
    if 0 < a.digits then Ord.compare a.order b.order else Ord.compare b.order a.order
  else
    Ord.compare (a.digits * Nat.pow 10 (b.scale - a.scale).toNat)
      (b.digits * Nat.pow 10 (a.scale - b.scale).toNat)

/-- Between the point and the first digit stand at most this many zeros. -/
def leadingZeros : Nat := 5

/-- After the last digit stand at most this many zeros without a point. -/
def trailingZeros : Nat := 15

/-- A number without its sign. A scale that would need too many zeros is written as an exponent
instead: after the first digit for small numbers, after the last for large ones. -/
def renderMagnitude (digits : List Char) (scale : Int) : List Char :=
  let length : Int := digits.length
  if 0 < scale then
    if leadingZeros < scale - length then
      (match digits with
        | [] => []
        | [d] => [d]
        | d :: ds => d :: '.' :: ds) ++ "E-".toList ++ Text.digits (scale - length + 1).toNat
    else if scale < length then
      digits.take (length - scale).toNat ++ '.' :: digits.drop (length - scale).toNat
    else "0.".toList ++ List.replicate (scale - length).toNat '0' ++ digits
  else if scale < -trailingZeros then digits ++ "e+".toList ++ Text.digits (-scale).toNat
  else digits ++ List.replicate (-scale).toNat '0'

/-- Zero is written without its scale. -/
def render (d : Decimal) : List Char :=
  if d.digits = 0 then ['0']
  else
    (if d.digits < 0 then ['-'] else []) ++
      renderMagnitude (Text.digits d.digits.natAbs) d.scale

def exponentLimit : Nat := Nat.pow 2 127

def scaleInRange (scale : Int) : Bool :=
  -(Nat.pow 2 63 : Int) ≤ scale && scale < Nat.pow 2 63

def readExponent? (cs : List Char) : Option Int :=
  let (negative, ds) := match cs with
    | '-' :: ds => (true, ds)
    | '+' :: ds => (false, ds)
    | _ => (false, cs)
  if ds = [] || !Text.allDigits ds then none
  else
    let n := Text.ofDigits ds
    if negative then if n ≤ exponentLimit then some (-n) else none
    else if n < exponentLimit then some n else none

/-- A whole number: an optional sign, a digit, then digits and underscores. -/
def readWhole? (cs : List Char) : Option Int :=
  let (negative, ds) := match cs with
    | '-' :: ds => (true, ds)
    | '+' :: ds => (false, ds)
    | _ => (false, cs)
  match ds with
  | [] => none
  | '_' :: _ => none
  | _ =>
    let ds := ds.filter (· != '_')
    if Text.allDigits ds then
      some (if negative then -Text.ofDigits ds else Text.ofDigits ds)
    else none

/-- Reads a number with an optional point and an optional exponent. The point may stand anywhere
before the exponent, and what is left without it must be a whole number. -/
def read? (cs : List Char) : Option Decimal := do
  let isMark (c : Char) : Bool := c == 'e' || c == 'E'
  let base := cs.takeWhile fun c => !isMark c
  let exponent ← match cs.dropWhile fun c => !isMark c with
    | [] => some 0
    | _ :: after => readExponent? after
  let (lead, trail) := (Text.splitAtFirst? '.' base).getD (base, [])
  let scale := (trail.countP (· != '_') : Int) - exponent
  let digits ← readWhole? (lead ++ trail)
  if scaleInRange scale then some ⟨digits, scale⟩ else none

end Decimal

end FilterQuery
