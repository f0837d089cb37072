namespace FilterQuery

/-- What an argument of an attribute has beside its path: nothing, a value that is a text, another
expression as its value, or a list in parentheses. -/
inductive ArgumentContent where
  | nothing
  | text (s : String)
  | expression (source : String)
  | list (source : String)
  deriving DecidableEq, Repr

/-- One argument of an attribute, such as the word `skip` alone. -/
structure Argument where
  path : String
  content : ArgumentContent
  deriving DecidableEq, Repr

/-- A mark on a declaration or on one of its fields. -/
structure Attribute where
  name : String
  arguments : List Argument
  deriving DecidableEq, Repr

/-- The name of the attributes that say how properties are derived; others are passed over. -/
def attributeName : String := "sift"

/-- The arguments that count: those of the first attribute of the right name. -/
def arguments (attributes : List Attribute) : List Argument :=
  match attributes.find? (·.name == attributeName) with
  | some a => a.arguments
  | none => []

inductive DeclarationForm where
  | named
  | tuple
  | unit
  | enumeration
  | union
  deriving DecidableEq, Repr

/-- A field of a declared type; `member` is whatever else is known about it. -/
structure DeclaredField (μ : Type) where
  name : String
  attributes : List Attribute
  member : μ
  deriving DecidableEq, Repr

/-- The declaration of a type. -/
structure Declaration (μ : Type) where
  form : DeclarationForm := .named
  /-- Whether the type has parameters. -/
  generic : Bool := false
  attributes : List Attribute := []
  fields : List (DeclaredField μ)
  deriving DecidableEq, Repr

end FilterQuery
