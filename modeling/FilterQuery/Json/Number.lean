import FilterQuery.Value.Binary.Text

namespace FilterQuery.Json

/-- A number as it is written. -/
structure Number where
  negative : Bool
  whole : List Char
  /-- The digits after the point; a point without digits is not written. -/
  fraction : List Char
  exponent : Option Int
  deriving DecidableEq, Repr

namespace Number

/-- Reads a text that is one number: a whole part without leading zeros, then a fraction and an
exponent, if any. -/
def read? (cs : List Char) : Option Number := do
  let (negative, cs) := match cs with
    | '-' :: cs => (true, cs)
    | _ => (false, cs)
  let isMark (c : Char) : Bool := c == 'e' || c == 'E'
  let base := cs.takeWhile fun c => !isMark c
  let exponent ← match cs.dropWhile fun c => !isMark c with
    | [] => some none
    | _ :: after => some <$> Binary.readExponent? after
  let (whole, fraction) ← match Text.splitAtFirst? '.' base with
    | none => some (base, [])
    | some (_, []) => none
    | some parts => some parts
  let plain := Text.allDigits (whole ++ fraction) && whole ≠ []
  if plain && (whole.head? ≠ some '0' || whole = ['0']) then
    return ⟨negative, whole, fraction, exponent⟩
  else none

/-- The value of a number written without a point and an exponent. Zero with a minus sign is a
float. -/
def integer? (n : Number) : Option Int :=
  let value := Text.ofDigits n.whole
  if n.fraction ≠ [] || n.exponent.isSome || (n.negative && value = 0) then none
  else some (if n.negative then -value else value)

/-- The greatest significand, which takes 64 bits. -/
def significandLimit : Nat := Nat.pow 2 64 - 1

/-- Takes digits in after a significand, up to the first that would make it too great, and returns
the digits from there on. -/
def absorb : (significand : Nat) → List Char → Nat × List Char
  | n, [] => (n, [])
  | n, c :: cs =>
    let longer := 10 * n + Text.digitValue c
    if longer ≤ significandLimit then absorb longer cs else (n, c :: cs)

/-- The digits that count, as a whole number, and the power of ten that it is multiplied by. -/
def parts (n : Number) : Nat × Int :=
  let (significand, dropped) := absorb 0 n.whole
  let (significand, rest) := absorb significand n.fraction
  (significand, dropped.length + rest.length - n.fraction.length + n.exponent.getD 0)

/-- The greatest power of ten of the binary64 format. -/
def greatestPower : Nat := 308

def power (n : Nat) : Nat :=
  BinaryFormat.binary64.nearestDecimal 1 n

def quotient (a b : Nat) : Nat :=
  let f := BinaryFormat.binary64
  f.nearest (f.units a) (f.units b)

def product (a b : Nat) : Nat :=
  let f := BinaryFormat.binary64
  f.nearest (f.units a * f.units b) (Nat.pow 2 (2 * f.scale))

/-- Divides a magnitude by a power of ten, in steps of the greatest power that is finite. -/
def divide (magnitude n : Nat) : Nat :=
  if n ≤ greatestPower then quotient magnitude (power n)
  else if magnitude = 0 then 0
  else divide (quotient magnitude (power greatestPower)) (n - greatestPower)
termination_by n
decreasing_by simp only [greatestPower] at *; omega

/-- The magnitude of a number as binary64, rounded after each step. There is none if it would be
infinite. -/
def magnitude? (n : Number) : Option Nat :=
  let (significand, exponent) := n.parts
  let start := BinaryFormat.binary64.nearest significand 1
  if significand = 0 then some 0
  else if exponent < 0 then some (divide start exponent.natAbs)
  else if greatestPower < exponent.natAbs then none
  else (some (product start (power exponent.natAbs))).filter (· < BinaryFormat.binary64.infinity)

/-- A number as binary32. An integer of 64 bits is rounded once, any other number first as
binary64. -/
def binary32? (n : Number) : Option Binary :=
  let limit := if n.negative then Nat.pow 2 63 else significandLimit
  match n.integer? with
  | some value =>
    if value.natAbs ≤ limit then
      some ⟨n.negative, BinaryFormat.binary32.nearest value.natAbs 1⟩
    else rounded
  | none => rounded
where
  rounded : Option Binary :=
    n.magnitude?.map fun m =>
      ⟨n.negative, BinaryFormat.binary32.nearest (BinaryFormat.binary64.units m)
        (Nat.pow 2 BinaryFormat.binary64.scale)⟩

end Number

end FilterQuery.Json
