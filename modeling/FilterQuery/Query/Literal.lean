import FilterQuery.Text.Quoted

namespace FilterQuery

/-- The reserved word for an absent value. -/
def nullText : String := "$!NULL!$"

/-- One written value: its text before decoding, or the mark of an absent value. -/
inductive Atom where
  | text (s : String)
  | null
  deriving DecidableEq, Repr

def Atom.render : Atom → String
  | .text s => Text.quote s
  | .null => nullText

inductive Literal where
  | single (atom : Atom)
  | list (atoms : List Atom)
  deriving DecidableEq, Repr

namespace Literal

def isList : Literal → Bool
  | .single _ => false
  | .list _ => true

def isNull : Literal → Bool
  | .single .null => true
  | _ => false

def mentionsNull : Literal → Bool
  | .single a => a == .null
  | .list as => as.contains .null

def renderAtoms : List Atom → String
  | [] => ""
  | [a] => a.render
  | a :: as => a.render ++ ", " ++ renderAtoms as

def render : Literal → String
  | .single a => a.render
  | .list as => "[" ++ renderAtoms as ++ "]"

end Literal

end FilterQuery
