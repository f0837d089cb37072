import FilterQuery.Text.Digits

namespace FilterQuery

/-- A universally unique identifier, as a number of 128 bits. -/
structure Uuid where
  value : Nat
  deriving DecidableEq, Repr

namespace Uuid

def hexChar (n : Nat) : Char :=
  if n < 10 then Char.ofNat ('0'.toNat + n) else Char.ofNat ('a'.toNat + n - 10)

def hexValue? (c : Char) : Option Nat :=
  if '0' ≤ c && c ≤ '9' then some (c.toNat - '0'.toNat)
  else if 'a' ≤ c && c ≤ 'f' then some (c.toNat - 'a'.toNat + 10)
  else if 'A' ≤ c && c ≤ 'F' then some (c.toNat - 'A'.toNat + 10)
  else none

def hexDigits : (width n : Nat) → List Char
  | 0, _ => []
  | width + 1, n => hexDigits width (n / 16) ++ [hexChar (n % 16)]

def ofHexDigits? (cs : List Char) : Option Nat :=
  cs.foldl (fun n? c => do return 16 * (← n?) + (← hexValue? c)) (some 0)

/-- Groups of 8, 4, 4, 4 and 12 digits, with hyphens between them. -/
def render (u : Uuid) : List Char :=
  let ds := hexDigits 32 u.value
  ds.take 8 ++ '-' :: (ds.drop 8).take 4 ++ '-' :: (ds.drop 12).take 4 ++
    '-' :: (ds.drop 16).take 4 ++ '-' :: ds.drop 20

def readHyphenated? (cs : List Char) : Option Uuid :=
  if cs.length = 36 && cs[8]? = some '-' && cs[13]? = some '-' && cs[18]? = some '-' &&
      cs[23]? = some '-' then
    (ofHexDigits? (cs.take 8 ++ (cs.drop 9).take 4 ++ (cs.drop 14).take 4 ++ (cs.drop 19).take 4 ++
      cs.drop 24)).map .mk
  else none

/-- The word that may stand before the hyphenated form. -/
def urn : List Char := "urn:uuid:".toList

/-- Reads 32 digits, or the hyphenated form alone, in braces or after the word. -/
def read? (cs : List Char) : Option Uuid :=
  if cs.length = 32 then (ofHexDigits? cs).map .mk
  else if cs.length = 38 then
    if cs.head? = some '\x7b' && cs.getLast? = some '\x7d' then
      readHyphenated? (cs.drop 1).dropLast
    else none
  else if (cs.take urn.length).map Char.toLower = urn then readHyphenated? (cs.drop urn.length)
  else readHyphenated? cs

end Uuid

end FilterQuery
