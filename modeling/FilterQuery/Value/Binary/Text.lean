import FilterQuery.Value.Binary.Shortest
import FilterQuery.Value.Integer

namespace FilterQuery.Binary

structure Layout where
  tie : Tie
  /-- Whether a magnitude, whose digits have the point after so many of them, is written without
  an exponent. -/
  positional : BinaryFormat → Nat → Int → Bool
  /-- Whether an exponent without a minus sign has a plus sign. -/
  plus : Bool

/-- Digits with the point after the first `places` of them, and at least one on each side. -/
def placePoint (digits : List Char) (places : Int) : List Char :=
  if places ≤ 0 then "0.".toList ++ List.replicate (-places).toNat '0' ++ digits
  else if places < digits.length then
    digits.take places.toNat ++ '.' :: digits.drop places.toNat
  else digits ++ List.replicate (places.toNat - digits.length) '0' ++ ".0".toList

/-- Digits with the point after the first of them, and the power of ten that makes up for it. -/
def withExponent (plus : Bool) (digits : List Char) (places : Int) : List Char :=
  (match digits with
    | [d] => [d]
    | d :: ds => d :: '.' :: ds
    | [] => []) ++ 'e' :: (if plus && 0 < places then ['+'] else []) ++ Integer.render (places - 1)

def renderMagnitude (layout : Layout) (f : BinaryFormat) (magnitude : Nat) : List Char :=
  if magnitude = 0 then "0.0".toList
  else
    let (number, exponent) := f.shortest layout.tie magnitude
    let digits := Text.digits number
    let places := digits.length + exponent
    if layout.positional f magnitude places then placePoint digits places
    else withExponent layout.plus digits places

def render (layout : Layout) (f : BinaryFormat) (x : Binary) : List Char :=
  if x.isNaN f then "NaN".toList
  else
    (if x.negative then ['-'] else []) ++
      if x.magnitude = f.infinity then "inf".toList else renderMagnitude layout f x.magnitude

/-- Literals are positional from the value nearest to 1e-4 up to, but not at, the one nearest
to 1e16. -/
def literalLayout : Layout where
  tie := .up
  positional f magnitude _ :=
    f.nearestDecimal 1 (-4) ≤ magnitude && magnitude < f.nearestDecimal 1 16
  plus := false

/-- The value of an exponent: an optional sign and at least one digit. -/
def readExponent? : List Char → Option Int
  | '-' :: cs => if cs ≠ [] && Text.allDigits cs then some (-Text.ofDigits cs) else none
  | '+' :: cs => if cs ≠ [] && Text.allDigits cs then some (Text.ofDigits cs) else none
  | cs => if cs ≠ [] && Text.allDigits cs then some (Text.ofDigits cs) else none

/-- A number without a sign: digits around an optional point, and an optional exponent. It is
returned as a whole number and a power of ten. -/
def readDecimal? (cs : List Char) : Option (Nat × Int) := do
  let isMark (c : Char) : Bool := c == 'e' || c == 'E'
  let base := cs.takeWhile fun c => !isMark c
  let exponent ← match cs.dropWhile fun c => !isMark c with
    | [] => some 0
    | _ :: after => readExponent? after
  let (whole, fraction) := (Text.splitAtFirst? '.' base).getD (base, [])
  if (whole ++ fraction) ≠ [] && Text.allDigits (whole ++ fraction) then
    some (Text.ofDigits (whole ++ fraction), exponent - fraction.length)
  else none

def readMagnitude? (f : BinaryFormat) (cs : List Char) : Option Nat :=
  let word := cs.map Char.toLower
  if word = "inf".toList || word = "infinity".toList then some f.infinity
  else if word = "nan".toList then some (f.infinity + 1)
  else (readDecimal? cs).map fun (digits, exponent) => f.nearestDecimal digits exponent

def read (f : BinaryFormat) (cs : List Char) : Except DecodeError Binary :=
  let (negative, rest) := match cs with
    | '-' :: rest => (true, rest)
    | '+' :: rest => (false, rest)
    | _ => (false, cs)
  if cs = [] then .error .emptyFloat
  else
    match readMagnitude? f rest with
    | some magnitude => .ok ⟨negative, magnitude⟩
    | none => .error .invalidFloat

end FilterQuery.Binary
