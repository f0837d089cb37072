import FilterQuery.Value.Binary.Nearest

namespace FilterQuery

/-- Which of two neighbours to take when a value lies halfway between them. -/
inductive Tie where
  | up
  | even
  deriving DecidableEq, Repr

namespace BinaryFormat

/-- The neighbours of a magnitude on the grid of multiples of a power of ten, if one of them
reads back as the magnitude: the nearer one of those that do. -/
def gridNeighbour? (f : BinaryFormat) (tie : Tie) (magnitude : Nat) (exponent : Int) :
    Option Nat :=
  let num := f.units magnitude * Nat.pow 10 (-exponent).toNat
  let den := Nat.pow 2 f.scale * Nat.pow 10 exponent.toNat
  let low := num / den
  let high := low + 1
  let readsBack (n : Nat) : Bool := f.nearestDecimal n exponent == magnitude
  match readsBack low, readsBack high with
  | false, false => none
  | true, false => some low
  | false, true => some high
  | true, true =>
    match Ord.compare (2 * num) ((low + high) * den), tie with
    | .lt, _ => some low
    | .gt, _ => some high
    | .eq, .up => some high
    | .eq, .even => some (if low % 2 = 0 then low else high)

/-- Tries ever finer grids, down to the one that holds every value of the format. -/
def refine (f : BinaryFormat) (tie : Tie) (magnitude : Nat) : Nat → Nat × Int
  | 0 => (f.units magnitude * Nat.pow 5 f.scale, -f.scale)
  | n + 1 =>
    let exponent : Int := (n + 1 : Nat) - f.scale
    match f.gridNeighbour? tie magnitude exponent with
    | some digits => (digits, exponent)
    | none => refine f tie magnitude n

/-- The exponent of the least power of ten above a positive finite magnitude. -/
def ceilingExponent (f : BinaryFormat) (magnitude : Nat) : Int :=
  let num := f.units magnitude
  let den := Nat.pow 2 f.scale
  if den ≤ num then (Text.digits (num / den)).length else 1 - (Text.digits (den / num)).length

/-- The fewest digits that read back as a positive finite magnitude, as a number and the power
of ten that it is multiplied by. -/
def shortest (f : BinaryFormat) (tie : Tie) (magnitude : Nat) : Nat × Int :=
  f.refine tie magnitude (f.ceilingExponent magnitude + f.scale).toNat

end BinaryFormat

end FilterQuery
