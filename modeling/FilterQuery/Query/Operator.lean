import FilterQuery.Text

namespace FilterQuery

/-- The four relations that an ordered value can have to a bound. -/
inductive Relation where
  | less
  | lessOrEqual
  | greater
  | greaterOrEqual
  deriving DecidableEq, Repr

def Relation.holds : Relation → Ordering → Bool
  | .less, o => o == .lt
  | .lessOrEqual, o => o != .gt
  | .greater, o => o == .gt
  | .greaterOrEqual, o => o != .lt

/-- What a clause asks of a property. -/
inductive Operator where
  | equal
  | notEqual
  | order (relation : Relation)
  | contains
  | oneOf
  | startsWith
  | endsWith
  deriving DecidableEq, Repr

namespace Operator

def all : List Operator :=
  [.equal, .notEqual, .order .less, .order .lessOrEqual, .order .greater,
    .order .greaterOrEqual, .contains, .oneOf, .startsWith, .endsWith]

/-- The function name that stands for the operator in a query. -/
def tag : Operator → String
  | .equal => "eq"
  | .notEqual => "ne"
  | .order .less => "lt"
  | .order .lessOrEqual => "lte"
  | .order .greater => "gt"
  | .order .greaterOrEqual => "gte"
  | .contains => "ct"
  | .oneOf => "cov"
  | .startsWith => "sw"
  | .endsWith => "ew"

/-- Tags are read in lower case only. -/
def ofTag? (s : String) : Option Operator :=
  all.find? fun op => op.tag == s

theorem mem_all (op : Operator) : op ∈ all := by
  cases op with
  | order r => cases r <;> decide
  | _ => decide

@[simp] theorem ofTag?_tag (op : Operator) : ofTag? op.tag = some op := by
  cases op with
  | order r => cases r <;> decide
  | _ => decide

def relation? : Operator → Option Relation
  | .order r => some r
  | _ => none

def isOrdering (op : Operator) : Bool :=
  op.relation?.isSome

def isEquality : Operator → Bool
  | .equal | .notEqual => true
  | _ => false

def isEdge : Operator → Bool
  | .startsWith | .endsWith => true
  | _ => false

end Operator

/-- How a clause is joined to the clauses before it. -/
inductive Joiner where
  | and
  | or
  deriving DecidableEq, Repr

namespace Joiner

def keyword : Joiner → String
  | .and => "and"
  | .or => "or"

/-- Joiners are read in any mix of ASCII case. -/
def ofKeyword? (s : String) : Option Joiner :=
  if Text.sameIgnoringCase s "and" then some .and
  else if Text.sameIgnoringCase s "or" then some .or
  else none

end Joiner

end FilterQuery
