import FilterQuery.Query.Clause
import FilterQuery.Record.Descriptor

namespace FilterQuery

inductive CoercionReason where
  | nullNotAllowed
  | undecodable (error : DecodeError)
  deriving DecidableEq, Repr

def CoercionReason.message : CoercionReason → String
  | .nullNotAllowed => "null is not allowed for a non-nullable type"
  | .undecodable e => e.message

inductive OperatorReason where
  | noOrdering (kind : Kind)
  | orderAgainstNull
  | needsString (found : Descriptor)
  | edgeAgainstNull
  | singleAgainstSingle (shape : Shape)
  | listAgainstSingle (shape : Shape)
  | singleAgainstSequence (found : Descriptor)
  | listAgainstSequence (found : Descriptor)
  | listForSingle
  | singleForList
  | notApplicable
  deriving DecidableEq, Repr

def OperatorReason.message : OperatorReason → String
  | .noOrdering k => s!"{k.name} values have no ordering"
  | .orderAgainstNull => "cannot order against null"
  | .needsString d => s!"requires a string property, found {d.render}"
  | .edgeAgainstNull => "cannot match a null prefix or suffix"
  | .singleAgainstSingle s =>
    s!"a {s.name} property with a single value supports eq, ne, lt, lte, gt, gte, sw and ew"
  | .listAgainstSingle s => s!"a list literal against a {s.name} property requires cov"
  | .singleAgainstSequence d => s!"a single value against {d.render} requires ct"
  | .listAgainstSequence d => s!"a list literal against {d.render} supports eq and ne"
  | .listForSingle => "expected a single value, found a list"
  | .singleForList => "expected a list, found a single value"
  | .notApplicable => "not applicable to a single scalar value"

/-- Why a query gives no predicate. -/
inductive QueryError where
  | malformed (error : SyntaxError)
  | unknownProperty (property : String)
  | coercion (property literal : String) (expected : Descriptor) (reason : CoercionReason)
  | unsupported (op : Operator) (property : String) (reason : OperatorReason)
  | emptyQuery
  | tooLong (length limit : Nat)
  deriving DecidableEq, Repr

namespace QueryError

def message : QueryError → String
  | .malformed e => e.message
  | .unknownProperty p => s!"unknown property '{p}'"
  | .coercion p l d r =>
    s!"cannot coerce '{l}' to {d.render} for property '{p}': {r.message}"
  | .unsupported op p r =>
    s!"operator '{op.tag}' is not supported on property '{p}': {r.message}"
  | .emptyQuery => "query is empty"
  | .tooLong n limit => s!"query is {n} bytes long, the configured maximum is {limit}"

/-- The name of an error's family. -/
def kind : QueryError → String
  | .malformed _ => "syntax"
  | .unknownProperty _ => "unknown-property"
  | .coercion .. => "coercion"
  | .unsupported .. => "unsupported-operator"
  | .emptyQuery => "empty-query"
  | .tooLong .. => "query-too-long"

end QueryError

end FilterQuery
