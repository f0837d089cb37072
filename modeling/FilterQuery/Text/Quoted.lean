import FilterQuery.Text

namespace FilterQuery.Text

/-- The two characters that a backslash precedes inside quotes. -/
def needsEscape (c : Char) : Bool :=
  c == '\'' || c == '\\'

def escape : List Char → List Char
  | [] => []
  | c :: cs => if needsEscape c then '\\' :: c :: escape cs else c :: escape cs

/-- A text in single quotes, each quote and backslash in it after a backslash. -/
def quote (s : String) : String :=
  String.ofList ('\'' :: escape s.toList ++ ['\''])

/-- Why a text is not the inside of a quotation; positions count bytes from its start. -/
inductive QuoteFault where
  | unterminated
  | badEscape (c : Char) (position : Nat)
  deriving DecidableEq, Repr

/-- Puts one decoded character, written in `width` bytes, before the result for what follows. -/
def prepend (c : Char) (width : Nat) :
    Except QuoteFault (List Char × List Char) → Except QuoteFault (List Char × List Char)
  | .ok (text, rest) => .ok (c :: text, rest)
  | .error .unterminated => .error .unterminated
  | .error (.badEscape x position) => .error (.badEscape x (width + position))

/-- Reads on after an opening quote, up to the quote that closes it. -/
def readQuoted : List Char → Except QuoteFault (List Char × List Char)
  | [] => .error .unterminated
  | '\'' :: rest => .ok ([], rest)
  | '\\' :: c :: rest =>
    if needsEscape c then prepend c (1 + c.utf8Size) (readQuoted rest)
    else .error (.badEscape c 0)
  | c :: rest => prepend c c.utf8Size (readQuoted rest)

end FilterQuery.Text
