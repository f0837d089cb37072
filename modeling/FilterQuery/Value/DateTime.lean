import FilterQuery.Value.Calendar

namespace FilterQuery

/-- A moment, in seconds since the beginning of 1970 and nanoseconds into the second, together
with the offset from UTC, in seconds, of the clock that shows it. From 1000000000 nanoseconds on
the moment lies in a leap second, which comes after its second and before the next. -/
structure DateTime where
  seconds : Int
  nanos : Nat
  offset : Int
  deriving DecidableEq, Repr

namespace DateTime

/-- Moments compare whatever the clock shows. -/
def compare (a b : DateTime) : Ordering :=
  (Ord.compare a.seconds b.seconds).then (Ord.compare a.nanos b.nanos)

/-- The nanoseconds from which on a moment lies in a leap second. -/
def leap : Nat := 1000000000

/-- A time of day as a clock shows it; a leap second is second 60. -/
structure Clock where
  hour : Nat
  minute : Nat
  second : Nat
  deriving DecidableEq, Repr

def date (t : DateTime) : Date :=
  .ofDays ((t.seconds + t.offset) / 86400)

def clock (t : DateTime) : Clock :=
  let second := ((t.seconds + t.offset) % 86400).toNat
  ⟨second / 3600, second % 3600 / 60, second % 60 + if leap ≤ t.nanos then 1 else 0⟩

/-- The moment that a clock with a valid date and time shows. -/
def ofClock (d : Date) (c : Clock) (nanos : Nat) (offset : Int) : DateTime :=
  let second := if c.second = 60 then 59 else c.second
  ⟨d.toDays * 86400 + (c.hour * 3600 + c.minute * 60 + second : Nat) - offset,
    if c.second = 60 then leap + nanos else nanos, offset⟩

end DateTime

end FilterQuery
