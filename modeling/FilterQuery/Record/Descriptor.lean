import FilterQuery.Value.Scalar

namespace FilterQuery

inductive Shape where
  | scalar
  | nullable
  | array
  | collection
  deriving DecidableEq, Repr

namespace Shape

def isSequence : Shape → Bool
  | .array | .collection => true
  | _ => false

def name : Shape → String
  | .scalar => "scalar"
  | .nullable => "nullable scalar"
  | .array => "array"
  | .collection => "collection"

end Shape

/-- The declared type of a property. For a sequence the kind is that of its elements, and the
flag tells whether they may be absent. -/
structure Descriptor where
  shape : Shape
  kind : Kind
  nullableElements : Bool
  deriving DecidableEq, Repr

namespace Descriptor

/-- Whether a single value, or a single element of a sequence, may be absent. -/
def acceptsNull (d : Descriptor) : Bool :=
  match d.shape with
  | .scalar => false
  | .nullable => true
  | .array | .collection => d.nullableElements

def render (d : Descriptor) : String :=
  match d.shape with
  | .scalar => d.kind.name
  | .nullable => "optional " ++ d.kind.name
  | _ => d.shape.name ++ (if d.nullableElements then " of optional " else " of ") ++ d.kind.name

end Descriptor

end FilterQuery
