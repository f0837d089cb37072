import FilterQuery.Query.Clause

namespace FilterQuery

structure Term extends Condition where
  joiner : Joiner
  deriving DecidableEq, Repr

/-- A query under construction. Its terms are written as they are, whether or not they can be
read back. -/
structure Draft where
  terms : List Term := []
  deriving DecidableEq, Repr

namespace Draft

def add (d : Draft) (t : Term) : Draft := ⟨d.terms ++ [t]⟩

def size (d : Draft) : Nat := d.terms.length

def isEmpty (d : Draft) : Bool := d.terms.isEmpty

/-- The clauses of a draft: the joiner of the first term is dropped. -/
def clauses (d : Draft) : List Clause :=
  match d.terms with
  | [] => []
  | t :: ts => ⟨t.toCondition, none⟩ :: ts.map fun t => ⟨t.toCondition, some t.joiner⟩

def render (d : Draft) : String :=
  renderClauses d.clauses

end Draft

end FilterQuery
