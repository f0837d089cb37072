import FilterQuery.Query.Literal

namespace FilterQuery

inductive Token where
  | word (text : String)
  | quoted (text : String)
  | null
  | openParen
  | closeParen
  | openBracket
  | closeBracket
  | comma
  | eof
  deriving DecidableEq, Repr

def Token.describe : Token → String
  | .word w => "'" ++ w ++ "'"
  | .quoted _ => "quoted text"
  | .null => "null sentinel"
  | .openParen => "'('"
  | .closeParen => "')'"
  | .openBracket => "'['"
  | .closeBracket => "']'"
  | .comma => "','"
  | .eof => "end of query"

def Token.ofMark? : Char → Option Token
  | '(' => some .openParen
  | ')' => some .closeParen
  | '[' => some .openBracket
  | ']' => some .closeBracket
  | ',' => some .comma
  | _ => none

/-- A token and the byte position where it starts. -/
structure Lexeme where
  token : Token
  position : Nat
  deriving DecidableEq, Repr

end FilterQuery
