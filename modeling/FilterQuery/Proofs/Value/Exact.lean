import FilterQuery.Proofs.Value.Duration
import FilterQuery.Proofs.Value.Integer
import FilterQuery.Proofs.Value.Uuid
import FilterQuery.Record.Field
import FilterQuery.Value.Codec

namespace FilterQuery

/-- Whether each value of a kind equals itself alone. Floats, decimals and moments have equal
values that differ, or values that equal nothing. -/
def Kind.isExact : Kind → Bool
  | .float _ | .decimal | .dateTime => false
  | _ => true

variable {k : Kind} {v w : Scalar}

theorem Kind.Holds.decode_int {t : IntegerType} {n : Int} (h : (Kind.integer t).Holds (.int n)) :
    (Kind.integer t).decode (Scalar.int n).encode = .ok (.int n) := by
  obtain ⟨hsigned, hn⟩ := h
  have hread := Integer.read_render.mpr ⟨hn, rfl⟩
  simp [Kind.decode, Scalar.encode, hread, Except.map, hsigned]

theorem Kind.Holds.decode_uint {t : IntegerType} {n : Nat}
    (h : (Kind.integer t).Holds (.uint n)) :
    (Kind.integer t).decode (Scalar.uint n).encode = .ok (.uint n) := by
  obtain ⟨hunsigned, hn⟩ := h
  have hrender : Integer.render n = Text.digits n := by
    simp [Integer.render]
  have hread := Integer.read_render.mpr ⟨hn, rfl⟩
  rw [hrender] at hread
  simp [Kind.decode, Scalar.encode, hread, Except.map, hunsigned]

/-- A value of an exact kind is decoded from its own text. -/
theorem Kind.Holds.decode_encode (hk : k.isExact = true) (h : k.Holds v) :
    k.decode v.encode = .ok v := by
  cases k with
  | float f => cases hk
  | decimal => cases hk
  | dateTime => cases hk
  | bool =>
    cases v with
    | bool b => cases b <;> rfl
    | _ => exact h.elim
  | char =>
    cases v with
    | char c => simp [Kind.decode, Scalar.encode]
    | _ => exact h.elim
  | integer t =>
    cases v with
    | int n => exact h.decode_int
    | uint n => exact h.decode_uint
    | _ => exact h.elim
  | string =>
    cases v with
    | string s => rfl
    | _ => exact h.elim
  | duration =>
    cases v with
    | duration d => simp [Kind.decode, Scalar.encode, Duration.read_render h, Except.map]
    | _ => exact h.elim
  | uuid =>
    cases v with
    | uuid u => simp [Kind.decode, Scalar.encode, Uuid.read?_render h]
    | _ => exact h.elim

/-- A value of an exact kind equals no other value. -/
theorem Kind.Holds.equals_iff_eq (hk : k.isExact = true) (h : k.Holds v) :
    v.equals w = true ↔ v = w := by
  simp only [Scalar.equals, beq_iff_eq]
  cases v with
  | float f x =>
    cases k with
    | float => cases hk
    | _ => exact h.elim
  | decimal d =>
    cases k with
    | decimal => cases hk
    | _ => exact h.elim
  | dateTime t =>
    cases k with
    | dateTime => cases hk
    | _ => exact h.elim
  | duration d =>
    cases w with
    | duration e =>
      cases d
      cases e
      simp [Scalar.compare]
    | _ => simp [Scalar.compare]
  | uuid u =>
    cases w with
    | uuid x =>
      cases u
      cases x
      simp [Scalar.compare]
    | _ => simp [Scalar.compare]
  | _ => cases w <;> simp [Scalar.compare]

end FilterQuery
