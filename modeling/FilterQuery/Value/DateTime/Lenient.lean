import FilterQuery.Text
import FilterQuery.Value.DateTime.Text

namespace FilterQuery.DateTime

/-- Reads a number of at most `width` digits after white space. -/
def readShort? (width : Nat) (cs : List Char) : Option (Nat × List Char) :=
  let cs := Text.trimStart cs
  let ds := (cs.take width).takeWhile Char.isDigit
  if ds = [] then none else some (Text.ofDigits ds, cs.drop ds.length)

/-- Reads a year: up to four digits, or any number of them after a sign. -/
def readYear? (cs : List Char) : Option (Int × List Char) :=
  match Text.trimStart cs with
  | '-' :: cs => (readUnbounded? cs).map fun (n, cs) => (-(n : Int), cs)
  | '+' :: cs => (readUnbounded? cs).map fun (n, cs) => ((n : Int), cs)
  | cs => (readShort? 4 cs).map fun (n, cs) => ((n : Int), cs)
where
  readUnbounded? (cs : List Char) : Option (Nat × List Char) :=
    let ds := cs.takeWhile Char.isDigit
    if ds = [] then none else some (Text.ofDigits ds, cs.dropWhile Char.isDigit)

def readSpacedMark? (mark : Char) (cs : List Char) : Option (List Char) :=
  readMark? mark (Text.trimStart cs)

/-- Reads an offset between whose hours and minutes any white space and colons may stand, or the
word UTC in any case. -/
def readLenientOffset? (cs : List Char) : Option (Int × List Char) :=
  if (cs.take 3).map Char.toLower = "utc".toList then some (0, cs.drop 3)
  else
    match cs with
    | 'Z' :: cs | 'z' :: cs => some (0, cs)
    | cs => do
      let (negative, cs) ← readSign? cs
      let (hours, cs) ← readFixed? 2 cs
      let (minutes, cs) ← readFixed? 2 (cs.dropWhile fun c => c == ':' || Text.isBlank c)
      let offset ← offsetOf? negative hours minutes
      return (offset, cs)

def yearInRange (year : Int) : Bool :=
  -262143 ≤ year && year ≤ 262142

/-- Reads a form wider than that of RFC 3339: numbers may be short, white space may stand before
most parts, and the year may have a sign. -/
def readLenient? (cs : List Char) : Option DateTime := do
  let (year, cs) ← readYear? cs
  let cs ← readSpacedMark? '-' cs
  let (month, cs) ← readShort? 2 cs
  let cs ← readSpacedMark? '-' cs
  let (day, cs) ← readShort? 2 cs
  let cs ← readMark? 'T' cs <|> readMark? 't' cs <|> readMark? ' ' cs
  let (hour, cs) ← readShort? 2 cs
  let cs ← readSpacedMark? ':' cs
  let (minute, cs) ← readShort? 2 cs
  let cs ← readSpacedMark? ':' cs
  let (second, cs) ← readShort? 2 cs
  let (nanos, cs) ← readFraction? cs
  let (offset, cs) ← readLenientOffset? (Text.trimStart cs)
  let t ← assemble? ⟨year, month, day⟩ ⟨hour, minute, second⟩ nanos offset
  if Text.trimStart cs = [] && yearInRange year && yearInRange { t with offset := 0 }.date.year
    then some t else none

end FilterQuery.DateTime
