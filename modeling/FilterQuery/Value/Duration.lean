import FilterQuery.Text.Digits
import FilterQuery.Value.DecodeError

namespace FilterQuery

/-- A span of time in nanoseconds. -/
structure Duration where
  nanos : Int
  deriving DecidableEq, Repr

namespace Duration

/-- The longest span: as many milliseconds as the greatest signed number of 64 bits. -/
def limit : Nat := (Nat.pow 2 63 - 1) * 1000000

def nanosPerSecond : Nat := 1000000000

def secondsPerDay : Nat := 86400

/-- Days and a point if there are days, then hours, minutes and seconds. -/
def renderSeconds (seconds : Nat) : List Char :=
  let days := seconds / secondsPerDay
  let rest := seconds % secondsPerDay
  (if days = 0 then [] else Text.digits days ++ ['.']) ++
    Text.padded 2 (rest / 3600) ++ ':' :: Text.padded 2 (rest % 3600 / 60) ++
    ':' :: Text.padded 2 (rest % 60)

/-- A point and the digits of a fraction that is not zero. -/
def renderFraction (nanos : Nat) : List Char :=
  if nanos = 0 then [] else '.' :: Text.dropTrailingZeros (Text.padded 9 nanos)

def render (d : Duration) : List Char :=
  let n := d.nanos.natAbs
  (if d.nanos < 0 then ['-'] else []) ++
    renderSeconds (n / nanosPerSecond) ++ renderFraction (n % nanosPerSecond)

def readPair? (bound : Nat) (cs : List Char) : Option Nat :=
  if cs.length = 2 && Text.allDigits cs && Text.ofDigits cs < bound then some (Text.ofDigits cs)
  else none

/-- Reads a number of days, which fits a signed number of 64 bits. -/
def readDays? (cs : List Char) : Option Nat :=
  if cs ≠ [] && Text.allDigits cs && Text.ofDigits cs < Nat.pow 2 63 then some (Text.ofDigits cs)
  else none

/-- Reads one to nine digits of a fraction as nanoseconds. -/
def readNanos? (cs : List Char) : Option Nat :=
  if cs ≠ [] && cs.length ≤ 9 && Text.allDigits cs then
    some (Text.ofDigits cs * Nat.pow 10 (9 - cs.length))
  else none

def readMagnitude? (cs : List Char) : Option Nat := do
  let (head, rest) ← Text.splitAtFirst? ':' cs
  let (middle, tail) ← Text.splitAtFirst? ':' rest
  let (days, hours) ← match Text.splitAtFirst? '.' head with
    | some (days, hours) => (readDays? days).map (·, hours)
    | none => some (0, head)
  let (seconds, nanos) ← match Text.splitAtFirst? '.' tail with
    | some (seconds, fraction) => (readNanos? fraction).map (seconds, ·)
    | none => some (tail, 0)
  let hours ← readPair? 24 hours
  let minutes ← readPair? 60 middle
  let seconds ← readPair? 60 seconds
  return (days * secondsPerDay + hours * 3600 + minutes * 60 + seconds) * nanosPerSecond + nanos

def read (cs : List Char) : Except DecodeError Duration :=
  let (negative, rest) := match cs with
    | '-' :: rest => (true, rest)
    | _ => (false, cs)
  match readMagnitude? rest with
  | none => .error .invalidDuration
  | some n =>
    if limit < n then .error .durationOutOfRange
    else .ok ⟨if negative then -n else n⟩

end Duration

end FilterQuery
