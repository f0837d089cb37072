import FilterQuery.Record.Descriptor

namespace FilterQuery

/-- Whether a value is one of a kind. -/
def Kind.Holds : Kind → Scalar → Prop
  | .bool, .bool _ => True
  | .char, .char _ => True
  | .integer t, .int n => t.signed = true ∧ t.Holds n
  | .integer t, .uint n => t.signed = false ∧ t.Holds n
  | .float f, .float g x => f = g ∧ x.magnitude < Nat.pow 2 f.magnitudeBits
  | .decimal, .decimal d => Decimal.scaleInRange d.scale = true
  | .string, .string _ => True
  | .dateTime, .dateTime t => t.nanos < 2 * DateTime.leap ∧ t.offset.natAbs < 86400
  | .duration, .duration d => d.nanos.natAbs ≤ Duration.limit
  | .uuid, .uuid u => u.value < Nat.pow 2 128
  | _, _ => False

instance (k : Kind) (v : Scalar) : Decidable (k.Holds v) := by
  unfold Kind.Holds
  split <;> infer_instance

/-- A value known to be of a kind. -/
structure Kind.Value (k : Kind) where
  scalar : Scalar
  holds : k.Holds scalar

namespace IntegerType

variable {t : IntegerType}

theorem holds_toInt (hs : t.signed = true) (n : BitVec t.width.bits) : t.Holds n.toInt := by
  have hlow := BitVec.le_toInt n
  have hhigh := @BitVec.toInt_lt _ n
  have hcast : ((2 ^ (t.width.bits - 1) : Nat) : Int) = 2 ^ (t.width.bits - 1) := by simp
  simp only [Holds, depth, height, hs, if_true, Nat.pow_eq]
  omega

theorem holds_toNat (hs : t.signed = false) (n : BitVec t.width.bits) : t.Holds n.toNat := by
  have hlt := n.isLt
  simp only [Holds, depth, height, hs, Bool.false_eq_true, if_false, Nat.pow_eq]
  omega

end IntegerType

/-- The types that single values of a record come in. A moment has two: with a clock that shows
UTC, and with a clock at an offset of its own. -/
inductive ScalarType where
  | bool
  | char
  | integer (type : IntegerType)
  | float (format : BinaryFormat)
  | decimal
  | string
  | utcTime
  | offsetTime
  | duration
  | uuid
  deriving DecidableEq, Repr

namespace ScalarType

def kind : ScalarType → Kind
  | .bool => .bool
  | .char => .char
  | .integer t => .integer t
  | .float f => .float f
  | .decimal => .decimal
  | .string => .string
  | .utcTime | .offsetTime => .dateTime
  | .duration => .duration
  | .uuid => .uuid

/-- The values of a type. Those of a fixed number of bits are the bits: an integer with a sign is
in two's complement, and the first bit of a float is its sign. The seconds of a moment have no
bounds here. -/
def Carrier : ScalarType → Type
  | .bool => Bool
  | .char => Char
  | .integer t => BitVec t.width.bits
  | .float f => BitVec (f.magnitudeBits + 1)
  | .decimal => Int × BitVec 64
  | .string => String
  | .utcTime => Int × Fin (2 * DateTime.leap)
  | .offsetTime => Int × Fin (2 * DateTime.leap) × { offset : Int // offset.natAbs < 86400 }
  | .duration => { nanos : Int // nanos.natAbs ≤ Duration.limit }
  | .uuid => BitVec 128

def scalar : (t : ScalarType) → t.Carrier → Scalar
  | .bool, b => .bool b
  | .char, c => .char c
  | .integer t, n => if t.signed then .int n.toInt else .uint n.toNat
  | .float f, x => .float f ⟨x.msb, (x.setWidth f.magnitudeBits).toNat⟩
  | .decimal, (digits, scale) => .decimal ⟨digits, scale.toInt⟩
  | .string, s => .string s
  | .utcTime, (seconds, nanos) => .dateTime ⟨seconds, nanos, 0⟩
  | .offsetTime, (seconds, nanos, offset) => .dateTime ⟨seconds, nanos, offset⟩
  | .duration, nanos => .duration ⟨nanos.val⟩
  | .uuid, u => .uuid ⟨u.toNat⟩

theorem holds (t : ScalarType) (v : t.Carrier) : t.kind.Holds (t.scalar v) := by
  cases t with
  | bool => trivial
  | char => trivial
  | integer t =>
    cases hs : t.signed with
    | true =>
      have hscalar : (integer t).scalar v = .int (BitVec.toInt v) := by simp [scalar, hs]
      rw [hscalar]
      exact ⟨hs, IntegerType.holds_toInt hs v⟩
    | false =>
      have hscalar : (integer t).scalar v = .uint (BitVec.toNat v) := by simp [scalar, hs]
      rw [hscalar]
      exact ⟨hs, IntegerType.holds_toNat hs v⟩
  | float f => exact ⟨rfl, BitVec.isLt _⟩
  | decimal =>
    have hlow := BitVec.le_toInt v.2
    have hhigh := @BitVec.toInt_lt _ v.2
    simpa [kind, scalar, Kind.Holds, Decimal.scaleInRange] using ⟨hlow, hhigh⟩
  | string => trivial
  | utcTime => exact ⟨v.2.isLt, (by decide : (0 : Int).natAbs < 86400)⟩
  | offsetTime => exact ⟨v.2.1.isLt, v.2.2.property⟩
  | duration => exact v.property
  | uuid => exact BitVec.isLt v

def value (t : ScalarType) (v : t.Carrier) : t.kind.Value :=
  ⟨t.scalar v, t.holds v⟩

end ScalarType

/-- What holds the elements of a sequence. A set keeps one of equal elements, in ascending order;
the others keep all of them as they come. -/
inductive Container where
  | vector
  | deque
  | set
  | array
  | slice
  deriving DecidableEq, Repr

def Container.shape : Container → Shape
  | .vector | .deque | .set => .collection
  | .array | .slice => .array

/-- The type of a record's field. -/
inductive FieldType where
  | plain (kind : Kind)
  | optional (kind : Kind)
  | sequence (container : Container) (kind : Kind) (nullable : Bool)
  deriving DecidableEq, Repr

/-- What a record holds for one property, as a query sees it. -/
inductive FieldValue where
  | null
  | scalar (v : Scalar)
  | sequence (items : List (Option Scalar))
  deriving DecidableEq, Repr

namespace FieldValue

def isNull : FieldValue → Bool
  | .null => true
  | _ => false

def scalar? : FieldValue → Option Scalar
  | .scalar v => some v
  | _ => none

def sequence? : FieldValue → Option (List (Option Scalar))
  | .sequence items => some items
  | _ => none

end FieldValue

namespace FieldType

/-- What a field of the type holds. -/
def Stored : FieldType → Type
  | .plain k => k.Value
  | .optional k => Option k.Value
  | .sequence _ k false => List k.Value
  | .sequence _ k true => List (Option k.Value)

def descriptor : FieldType → Descriptor
  | .plain k => ⟨.scalar, k, false⟩
  | .optional k => ⟨.nullable, k, false⟩
  | .sequence c k nullable => ⟨c.shape, k, nullable⟩

def fieldValue : (t : FieldType) → t.Stored → FieldValue
  | .plain _, v => .scalar v.scalar
  | .optional _, none => .null
  | .optional _, some v => .scalar v.scalar
  | .sequence _ _ false, vs => .sequence (vs.map fun v => some v.scalar)
  | .sequence _ _ true, vs => .sequence (vs.map fun v => v.map (·.scalar))

end FieldType

/-- Inserts an element into an ascending list, unless an equal one is there. -/
def insertOrdered {α : Type} (order : α → α → Ordering) (x : α) : List α → List α
  | [] => [x]
  | y :: ys =>
    match order x y with
    | .lt => x :: y :: ys
    | .eq => y :: ys
    | .gt => y :: insertOrdered order x ys

/-- The order of a set's elements. -/
def Kind.Value.order {k : Kind} (a b : k.Value) : Ordering :=
  (a.scalar.compare b.scalar).getD .eq

/-- An absent element comes first. -/
def Kind.Value.optionalOrder {k : Kind} : Option k.Value → Option k.Value → Ordering
  | none, none => .eq
  | none, some _ => .lt
  | some _, none => .gt
  | some a, some b => a.order b

/-- The elements that a container holds when these are put into it one after the other. -/
def Container.collect {α : Type} (c : Container) (order : α → α → Ordering)
    (items : List α) : List α :=
  if c = .set then items.foldl (fun xs x => insertOrdered order x xs) [] else items

end FilterQuery
