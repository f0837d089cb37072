import FilterQuery.Text.Uppercase

namespace FilterQuery

/-- Drops the underscores of a name and puts the letter after each of them in upper case; the
flag tells whether the first letter is one of those. -/
def humps : (upper : Bool) → List Char → List Char
  | _, [] => []
  | upper, c :: cs =>
    if c = '_' then humps true cs
    else (if upper then c.toUpper else c) :: humps false cs

/-- A convention by which the names of properties are made from those of fields. -/
inductive NamingRule where
  | pascal
  | camel
  | snake
  deriving DecidableEq, Repr

namespace NamingRule

def ofName? : String → Option NamingRule
  | "PascalCase" => some .pascal
  | "camelCase" => some .camel
  | "snake_case" => some .snake
  | _ => none

def applyChars : NamingRule → List Char → List Char
  | .pascal, cs => humps true cs
  | .camel, cs => humps false (cs.dropWhile (· == '_'))
  | .snake, cs => cs

def apply (r : NamingRule) (name : String) : String :=
  String.ofList (r.applyChars name.toList)

end NamingRule

/-- What stands before a character, as far as the name of a constant depends on it: an ASCII
lower-case letter of the property's name, an underscore of the constant's, or neither. -/
inductive Preceding where
  | lower
  | underscore
  | other
  deriving DecidableEq, Repr

/-- Puts ASCII letters in upper case, marks the change from a lower-case to an upper-case letter
with an underscore, and puts one underscore for each run of other characters. -/
def constantChars : Preceding → List Char → List Char
  | _, [] => []
  | before, c :: cs =>
    if Text.isUppercase c then
      (if before = .lower then ['_', c] else [c]) ++ constantChars .other cs
    else if c.isAlphanum then
      c.toUpper :: constantChars (if c.isLower then .lower else .other) cs
    else (if before = .underscore then [] else ['_']) ++ constantChars .underscore cs

/-- A name does not begin with a digit. -/
def guardDigit : List Char → List Char
  | [] => []
  | c :: cs => if c.isDigit then '_' :: c :: cs else c :: cs

def constantName (name : String) : String :=
  String.ofList (guardDigit (constantChars .other name.toList))

end FilterQuery
