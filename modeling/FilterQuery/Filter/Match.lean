import FilterQuery.Filter.Comparison
import FilterQuery.Filter.Predicate
import FilterQuery.Record.Schema

namespace FilterQuery

def utf8 (s : String) : List UInt8 :=
  s.toUTF8.data.toList

/-- Whether a text has another one at one of its ends, byte for byte. -/
def Edge.holds (e : Edge) (part whole : String) : Bool :=
  match e with
  | .leading => (utf8 part).isPrefixOf (utf8 whole)
  | .trailing => (utf8 part).isSuffixOf (utf8 whole)

/-- Whether two sequences have equal elements at the same places, and no others. -/
def sameElements : List (Option Scalar) → List (Option Scalar) → Bool
  | [], [] => true
  | a :: as, b :: bs => Scalar.optionalEquals a b && sameElements as bs
  | _, _ => false

/-- Whether the value of a property passes. An absent value has no order and no edges, and a
value that is not a sequence has no elements. -/
def Comparison.holds (c : Comparison) (v : FieldValue) : Bool :=
  match c with
  | .equals expected negate => Scalar.optionalEquals v.scalar? expected != negate
  | .order r bound =>
    match v.scalar?.bind (·.compare bound) with
    | some o => r.holds o
    | none => false
  | .edge e text =>
    match v.scalar?.bind Scalar.string? with
    | some s => e.holds text s
    | none => false
  | .oneOf candidates => candidates.any fun c => Scalar.optionalEquals v.scalar? c
  | .contains needle =>
    match v.sequence? with
    | some items => items.any fun item => Scalar.optionalEquals item needle
    | none => false
  | .sequenceEquals expected negate =>
    (match v.sequence? with
      | some items => sameElements items expected
      | none => false) != negate

def Property.test {α : Type} (p : Property α) (c : Comparison) : Predicate α :=
  ⟨fun a => c.holds (p.read a)⟩

end FilterQuery
