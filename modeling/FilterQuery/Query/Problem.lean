import FilterQuery.Query.Operator
import FilterQuery.Query.Token

namespace FilterQuery

/-- What is wrong with a query as it is written. -/
inductive Problem where
  | unexpectedCharacter (c : Char)
  | unterminatedText
  | invalidEscape (c : Char)
  | leadingJoiner
  | unknownFunction (word : String)
  | expectedFunction (found : Token)
  | expectedOpening (found : Token)
  | expectedProperty (found : Token)
  | emptyProperty
  | expectedComma (found : Token)
  | expectedLiteral (found : Token)
  | expectedListEnd (found : Token)
  | unclosedList
  | expectedClosing (found : Token)
  | expectedJoiner (found : Token)
  | blankProperty
  | emptyList
  | joinedFirst (joiner : Joiner)
  | unjoined (number : Nat)
  deriving DecidableEq, Repr

def Problem.message : Problem → String
  | .unexpectedCharacter c => s!"unexpected character '{c}'"
  | .unterminatedText => "unterminated quoted text"
  | .invalidEscape c => "invalid escape sequence '\\" ++ c.toString ++ "'"
  | .leadingJoiner => "query cannot start with a joiner"
  | .unknownFunction w => s!"unknown function '{w}'"
  | .expectedFunction t => s!"expected a function name, found {t.describe}"
  | .expectedOpening t => s!"expected '(' after function name, found {t.describe}"
  | .expectedProperty t => s!"expected a quoted property name, found {t.describe}"
  | .emptyProperty => "empty property name"
  | .expectedComma t => s!"expected ',' after property name, found {t.describe}"
  | .expectedLiteral t => s!"expected a quoted literal, found {t.describe}"
  | .expectedListEnd t => s!"expected ',' or ']' in list, found {t.describe}"
  | .unclosedList => "unclosed '['"
  | .expectedClosing t => s!"expected ')' to close the clause, found {t.describe}"
  | .expectedJoiner t => s!"expected 'and' or 'or', found {t.describe}"
  | .blankProperty => "property name must not be empty"
  | .emptyList => "list literal must not be empty"
  | .joinedFirst j => s!"first clause must not have a joiner, found '{j.keyword}'"
  | .unjoined n => s!"clause {n} is missing a joiner"

/-- A problem and the byte position in the query where it shows. -/
structure Fault where
  problem : Problem
  position : Nat
  deriving DecidableEq, Repr

/-- A fault together with the beginning of the text at its position. -/
structure SyntaxError where
  problem : Problem
  position : Nat
  fragment : String
  deriving DecidableEq, Repr

def SyntaxError.message (e : SyntaxError) : String :=
  s!"syntax error at byte {e.position}: {e.problem.message} (near '{e.fragment}')"

def Fault.within (f : Fault) (query : String) : SyntaxError :=
  ⟨f.problem, f.position, Text.fragmentAt query f.position⟩

end FilterQuery
