import FilterQuery.Record.Field
import FilterQuery.Value.Codec

namespace FilterQuery

/-- The literal that a field's value is written as. -/
def FieldType.literal : (t : FieldType) → t.Stored → Literal
  | .plain _, v => .single (Scalar.toAtom v.scalar)
  | .optional _, v => .single (Scalar.toAtom (v.map (·.scalar)))
  | .sequence _ _ false, vs => .list (vs.map fun v => Scalar.toAtom v.scalar)
  | .sequence _ _ true, vs => .list (vs.map fun v => Scalar.toAtom (v.map (·.scalar)))

end FilterQuery
