import FilterQuery.Filter.Error
import FilterQuery.Value.Codec

namespace FilterQuery

/-- The four ways in which a property meets a literal: a single value meets one value or a list
of candidates, a sequence meets one value or a list of elements. -/
inductive Path where
  | direct
  | oneOf
  | contains
  | sequenceEquals
  deriving DecidableEq, Repr

/-- A decoded literal; absent values stand for themselves. -/
inductive Coerced where
  | single (v : Option Scalar)
  | many (vs : List (Option Scalar))
  deriving DecidableEq, Repr

inductive Edge where
  | leading
  | trailing
  deriving DecidableEq, Repr

/-- A condition that has been checked against the type of its property, with its literal
decoded. -/
inductive Comparison where
  | equals (expected : Option Scalar) (negate : Bool)
  | order (relation : Relation) (bound : Scalar)
  | edge (edge : Edge) (text : String)
  | oneOf (candidates : List (Option Scalar))
  | contains (needle : Option Scalar)
  | sequenceEquals (expected : List (Option Scalar)) (negate : Bool)
  deriving DecidableEq, Repr

def Comparison.path : Comparison → Path
  | .equals .. | .order .. | .edge .. => .direct
  | .oneOf _ => .oneOf
  | .contains _ => .contains
  | .sequenceEquals .. => .sequenceEquals

namespace Condition

def unsupported {α : Type} (c : Condition) (reason : OperatorReason) : Except QueryError α :=
  .error (.unsupported c.op c.property reason)

def nullNotAllowed {α : Type} (c : Condition) (d : Descriptor) : Except QueryError α :=
  .error (.coercion c.property nullText d .nullNotAllowed)

def rejectNull (c : Condition) (d : Descriptor) : Except QueryError Unit :=
  if c.literal.mentionsNull && !d.acceptsNull then c.nullNotAllowed d else .ok ()

/-- Chooses how the property meets the literal, or tells why the operator does not fit. -/
def path (c : Condition) (d : Descriptor) : Except QueryError Path :=
  match d.shape.isSequence, c.literal.isList with
  | false, false =>
    if c.op.isOrdering then
      if !d.kind.isOrderable then c.unsupported (.noOrdering d.kind)
      else if c.literal.isNull && d.acceptsNull then c.unsupported .orderAgainstNull
      else .ok .direct
    else if c.op.isEdge then
      if d.kind ≠ .string then c.unsupported (.needsString d)
      else if c.literal.isNull && d.acceptsNull then c.unsupported .edgeAgainstNull
      else .ok .direct
    else if c.op.isEquality then .ok .direct
    else c.unsupported (.singleAgainstSingle d.shape)
  | false, true =>
    if c.op = .oneOf then .ok .oneOf else c.unsupported (.listAgainstSingle d.shape)
  | true, false =>
    if c.op = .contains then .ok .contains else c.unsupported (.singleAgainstSequence d)
  | true, true =>
    if c.op.isEquality then .ok .sequenceEquals else c.unsupported (.listAgainstSequence d)

def coerceAtom (c : Condition) (d : Descriptor) : Atom → Except QueryError (Option Scalar)
  | .null => if d.acceptsNull then .ok none else c.nullNotAllowed d
  | .text s =>
    match d.kind.decode s with
    | .ok v => .ok (some v)
    | .error e => .error (.coercion c.property s d (.undecodable e))

def coerceAtoms (c : Condition) (d : Descriptor) :
    List Atom → Except QueryError (List (Option Scalar))
  | [] => .ok []
  | a :: as => do
    let v ← c.coerceAtom d a
    let vs ← c.coerceAtoms d as
    return v :: vs

/-- Decodes the literal, whatever the operator. -/
def coerce (c : Condition) (d : Descriptor) : Except QueryError Coerced :=
  match c.literal with
  | .single a => (c.coerceAtom d a).map .single
  | .list as => (c.coerceAtoms d as).map .many

def single (c : Condition) (d : Descriptor) : Except QueryError (Option Scalar) :=
  match c.literal with
  | .single a => c.coerceAtom d a
  | .list _ => c.unsupported .listForSingle

def many (c : Condition) (d : Descriptor) : Except QueryError (List (Option Scalar)) :=
  match c.literal with
  | .list as => c.coerceAtoms d as
  | .single _ => c.unsupported .singleForList

def direct (c : Condition) (v : Option Scalar) : Except QueryError Comparison :=
  match c.op, v with
  | .order r, some bound => .ok (.order r bound)
  | .order _, none => c.unsupported .orderAgainstNull
  | .equal, _ => .ok (.equals v false)
  | .notEqual, _ => .ok (.equals v true)
  | .startsWith, some (.string s) => .ok (.edge .leading s)
  | .endsWith, some (.string s) => .ok (.edge .trailing s)
  | .startsWith, none | .endsWith, none => c.unsupported .edgeAgainstNull
  | _, _ => c.unsupported .notApplicable

/-- Checks a condition against the type of its property and decodes its literal. A misplaced
absent value is reported first, then an operator that does not fit, then a literal that cannot be
decoded. -/
def comparison (c : Condition) (d : Descriptor) : Except QueryError Comparison := do
  c.rejectNull d
  match ← c.path d with
  | .direct => c.direct (← c.single d)
  | .contains => (c.single d).map .contains
  | .oneOf => (c.many d).map .oneOf
  | .sequenceEquals => (c.many d).map fun vs => .sequenceEquals vs (c.op == .notEqual)

end Condition

end FilterQuery
