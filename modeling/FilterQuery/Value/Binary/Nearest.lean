import FilterQuery.Text.Digits
import FilterQuery.Value.Binary

namespace FilterQuery

/-- The greatest number reached from `low` by adding distinct powers of two below `2 ^ bits`
that satisfies a test which fails for good once it fails. -/
def greatest (test : Nat → Bool) : (bits low : Nat) → Nat
  | 0, low => low
  | bits + 1, low =>
    let high := low + Nat.pow 2 bits
    if test high then greatest test bits high else greatest test bits low

namespace BinaryFormat

/-- The magnitude nearest to the ratio of two numbers; of two equally near the even one, and
infinity from half a step above the greatest finite value. -/
def nearest (f : BinaryFormat) (num den : Nat) : Nat :=
  let target := num * Nat.pow 2 f.scale
  let below := greatest (fun m => m ≤ f.infinity && f.units m * den ≤ target) f.magnitudeBits 0
  if below = f.infinity then below
  else
    match Ord.compare (2 * target) ((f.units below + f.units (below + 1)) * den) with
    | .lt => below
    | .gt => below + 1
    | .eq => if below % 2 = 0 then below else below + 1

/-- A decimal exponent beyond which every value is infinite, or zero on the other side. -/
def decimalRange : Int := 400

def nearestDecimal (f : BinaryFormat) (digits : Nat) (exponent : Int) : Nat :=
  if digits = 0 then 0
  else if decimalRange < exponent then f.infinity
  else if exponent + (Text.digits digits).length < -decimalRange then 0
  else if 0 ≤ exponent then f.nearest (digits * Nat.pow 10 exponent.toNat) 1
  else f.nearest digits (Nat.pow 10 (-exponent).toNat)

end BinaryFormat

end FilterQuery
