import FilterQuery.Text.Digits
import FilterQuery.Value.DateTime

namespace FilterQuery.DateTime

/-- A year has four digits, and a sign if it needs more or is negative. -/
def renderYear (year : Int) : List Char :=
  if 0 ≤ year && year ≤ 9999 then Text.padded 4 year.toNat
  else (if year < 0 then '-' else '+') :: Text.padded 4 year.natAbs

/-- The fraction of a second in the shortest of no, three, six and nine digits. -/
def renderFraction (nanos : Nat) : List Char :=
  if nanos = 0 then []
  else if nanos % 1000000 = 0 then '.' :: Text.padded 3 (nanos / 1000000)
  else if nanos % 1000 = 0 then '.' :: Text.padded 6 (nanos / 1000)
  else '.' :: Text.padded 9 nanos

/-- An offset is rounded to minutes. -/
def renderOffset (offset : Int) : List Char :=
  if offset = 0 then ['Z']
  else
    let minutes := (offset.natAbs + 30) / 60
    (if offset < 0 then '-' else '+') :: Text.padded 2 (minutes / 60) ++
      ':' :: Text.padded 2 (minutes % 60)

/-- The form of RFC 3339. -/
def render (t : DateTime) : List Char :=
  let d := t.date
  let c := t.clock
  renderYear d.year ++ '-' :: Text.padded 2 d.month ++ '-' :: Text.padded 2 d.day ++
    'T' :: Text.padded 2 c.hour ++ ':' :: Text.padded 2 c.minute ++ ':' :: Text.padded 2 c.second ++
    renderFraction (t.nanos % leap) ++ renderOffset t.offset

def readFixed? (width : Nat) (cs : List Char) : Option (Nat × List Char) :=
  let ds := cs.take width
  if ds.length = width && Text.allDigits ds then some (Text.ofDigits ds, cs.drop width) else none

def readMark? (mark : Char) : List Char → Option (List Char)
  | [] => none
  | c :: cs => if c = mark then some cs else none

/-- The nanoseconds that the first digits of a fraction stand for. -/
def nanosOf (ds : List Char) : Nat :=
  Text.ofDigits (ds.take 9) * Nat.pow 10 (9 - ds.length)

/-- Reads an optional fraction of a second; digits after the ninth do not count. -/
def readFraction? : List Char → Option (Nat × List Char)
  | '.' :: cs =>
    let ds := cs.takeWhile Char.isDigit
    if ds = [] then none else some (nanosOf ds, cs.dropWhile Char.isDigit)
  | cs => some (0, cs)

/-- Reads the sign of an offset, for which U+2212 may stand in. -/
def readSign? : List Char → Option (Bool × List Char)
  | '+' :: cs => some (false, cs)
  | '-' :: cs | '\u2212' :: cs => some (true, cs)
  | _ => none

/-- An offset of less than a day, from its sign, hours and minutes. -/
def offsetOf? (negative : Bool) (hours minutes : Nat) : Option Int :=
  if minutes < 60 && hours < 24 then
    let seconds : Int := (hours * 3600 + minutes * 60 : Nat)
    some (if negative then -seconds else seconds)
  else none

/-- The moment that a date and a time stand for, if the calendar and the clock have them. -/
def assemble? (d : Date) (c : Clock) (nanos : Nat) (offset : Int) : Option DateTime :=
  if d.Valid ∧ c.hour < 24 ∧ c.minute < 60 ∧ c.second ≤ 60 then some (ofClock d c nanos offset)
  else none

/-- Reads an offset: Z in either case, or a sign, hours and minutes. -/
def readOffset? : List Char → Option (Int × List Char)
  | 'Z' :: cs | 'z' :: cs => some (0, cs)
  | cs => do
    let (negative, cs) ← readSign? cs
    let (hours, cs) ← readFixed? 2 cs
    let cs ← readMark? ':' cs
    let (minutes, cs) ← readFixed? 2 cs
    let offset ← offsetOf? negative hours minutes
    return (offset, cs)

/-- Reads the form of RFC 3339, in which T may be in either case or a space. -/
def read? (cs : List Char) : Option DateTime := do
  let (year, cs) ← readFixed? 4 cs
  let cs ← readMark? '-' cs
  let (month, cs) ← readFixed? 2 cs
  let cs ← readMark? '-' cs
  let (day, cs) ← readFixed? 2 cs
  let cs ← readMark? 'T' cs <|> readMark? 't' cs <|> readMark? ' ' cs
  let (hour, cs) ← readFixed? 2 cs
  let cs ← readMark? ':' cs
  let (minute, cs) ← readFixed? 2 cs
  let cs ← readMark? ':' cs
  let (second, cs) ← readFixed? 2 cs
  let (nanos, cs) ← readFraction? cs
  let (offset, cs) ← readOffset? cs
  if cs = [] then assemble? ⟨year, month, day⟩ ⟨hour, minute, second⟩ nanos offset else none

end FilterQuery.DateTime
