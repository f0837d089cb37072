import FilterQuery.Query.Problem

namespace FilterQuery

/-- One test: an operator applied to a property and a literal. -/
structure Condition where
  op : Operator
  property : String
  literal : Literal
  deriving DecidableEq, Repr

def Condition.render (c : Condition) : String :=
  c.op.tag ++ "(" ++ Text.quote c.property ++ ", " ++ c.literal.render ++ ")"

/-- A condition and how it is joined to what precedes it; a first clause has no joiner. -/
structure Clause extends Condition where
  joiner : Option Joiner
  deriving DecidableEq, Repr

namespace Clause

/-- Accepts a condition that names a property and lists at least one value. -/
def create (joiner : Option Joiner) (c : Condition) : Except SyntaxError Clause :=
  if Text.Blank c.property then .error ⟨.blankProperty, 0, c.property⟩
  else if c.literal = .list [] then .error ⟨.emptyList, 0, c.render⟩
  else .ok ⟨c, joiner⟩

/-- The text of a clause leaves its joiner out. -/
def render (c : Clause) : String :=
  c.toCondition.render

end Clause

def renderClauses (cs : List Clause) : String :=
  String.join (cs.map fun c =>
    match c.joiner with
    | some j => " " ++ j.keyword ++ " " ++ c.render
    | none => c.render)

end FilterQuery
