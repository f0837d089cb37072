import FilterQuery.Json.Number
import FilterQuery.Value.Uuid

namespace FilterQuery.Json

/-- What stands in a text that is not blank. A string is kept as code points, since escapes may
write halves of surrogate pairs. -/
inductive Token where
  | openArray
  | closeArray
  | openObject
  | closeObject
  | comma
  | colon
  | null
  | bool (b : Bool)
  | number (n : Number)
  | string (points : List Nat)
  deriving DecidableEq, Repr

def isBlank (c : Char) : Bool :=
  c == ' ' || c == '\n' || c == '\t' || c == '\x0d'

def mark? : Char → Option Token
  | '[' => some .openArray
  | ']' => some .closeArray
  | '\x7b' => some .openObject
  | '\x7d' => some .closeObject
  | ',' => some .comma
  | ':' => some .colon
  | _ => none

/-- The character that an escape with a single letter writes. -/
def escaped? : Char → Option Char
  | '"' => some '"'
  | '\\' => some '\\'
  | '/' => some '/'
  | 'b' => some '\x08'
  | 'f' => some '\x0c'
  | 'n' => some '\n'
  | 'r' => some '\x0d'
  | 't' => some '\t'
  | _ => none

/-- Reads on after an opening quote, up to the quote that closes it. -/
def readString? : List Char → Option (List Nat × List Char)
  | [] => none
  | '"' :: rest => some ([], rest)
  | '\\' :: 'u' :: a :: b :: c :: d :: rest => do
    let point ← Uuid.ofHexDigits? [a, b, c, d]
    let (points, rest) ← readString? rest
    return (point :: points, rest)
  | '\\' :: c :: rest => do
    let c ← escaped? c
    let (points, rest) ← readString? rest
    return (c.toNat :: points, rest)
  | c :: rest =>
    if c.toNat < 0x20 then none
    else do
      let (points, rest) ← readString? rest
      return (c.toNat :: points, rest)

def isNumberChar (c : Char) : Bool :=
  c.isDigit || c == '-' || c == '+' || c == '.' || c == 'e' || c == 'E'

def word? (cs : List Char) : Option Token :=
  if cs = "null".toList then some .null
  else if cs = "true".toList then some (.bool true)
  else if cs = "false".toList then some (.bool false)
  else none

def readToken? (c : Char) (cs : List Char) : Option (Token × List Char) :=
  match mark? c with
  | some t => some (t, cs)
  | none =>
    if c = '"' then (readString? cs).map fun (points, rest) => (.string points, rest)
    else if c.isDigit || c == '-' then
      (Number.read? (c :: cs.takeWhile isNumberChar)).map fun n =>
        (.number n, cs.dropWhile isNumberChar)
    else (word? (c :: cs.takeWhile Char.isAlpha)).map fun t => (t, cs.dropWhile Char.isAlpha)

theorem length_readString? {cs rest : List Char} {points : List Nat}
    (h : readString? cs = some (points, rest)) : rest.length < cs.length := by
  fun_induction readString? cs generalizing points rest with
  | case1 => simp at h
  | case2 => simp at h; simp [h.2]
  | case3 a b c d cs ih =>
    simp only [Option.bind_eq_bind, Option.bind_eq_some_iff] at h
    obtain ⟨_, _, ⟨_, _⟩, hr, h⟩ := h
    simp at h
    have := ih hr
    simp only [List.length_cons, ← h.2]; omega
  | case4 c cs _ ih =>
    simp only [Option.bind_eq_bind, Option.bind_eq_some_iff] at h
    obtain ⟨_, _, ⟨_, _⟩, hr, h⟩ := h
    simp at h
    have := ih hr
    simp only [List.length_cons, ← h.2]; omega
  | case5 => simp at h
  | case6 c cs _ _ _ _ ih =>
    simp only [Option.bind_eq_bind, Option.bind_eq_some_iff] at h
    obtain ⟨⟨_, _⟩, hr, h⟩ := h
    simp at h
    have := ih hr
    simp only [List.length_cons, ← h.2]; omega

theorem length_readToken? {c : Char} {cs rest : List Char} {t : Token}
    (h : readToken? c cs = some (t, rest)) : rest.length ≤ cs.length := by
  simp only [readToken?] at h
  split at h
  · simp at h; simp [h.2]
  split at h
  · simp only [Option.map_eq_some_iff] at h
    obtain ⟨⟨_, _⟩, hr, h⟩ := h
    simp at h
    have := length_readString? hr
    rw [← h.2]; omega
  split at h
  all_goals
    simp only [Option.map_eq_some_iff, Prod.mk.injEq] at h
    obtain ⟨_, _, _, rfl⟩ := h
    exact (List.dropWhile_sublist _).length_le

def tokens? : List Char → Option (List Token)
  | [] => some []
  | c :: cs =>
    if isBlank c then tokens? cs
    else
      match h : readToken? c cs with
      | none => none
      | some (t, rest) =>
        have := length_readToken? h
        (tokens? rest).map (t :: ·)
termination_by cs => cs.length

end FilterQuery.Json
