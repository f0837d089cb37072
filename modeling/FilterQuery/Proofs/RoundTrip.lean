import FilterQuery.Proofs.Value.Binary
import FilterQuery.Proofs.Value.Decimal
import FilterQuery.Proofs.Value.Exact

namespace FilterQuery

/-! ## Integers -/

def IntegerType.scalar (t : IntegerType) (n : Int) : Scalar :=
  if t.signed then .int n else .uint n.toNat

section

variable {t u : IntegerType} {n : Int} {v : Scalar}

theorem IntegerType.Holds.nonneg (h : t.Holds n) (hunsigned : t.signed = false) : 0 ≤ n := by
  have hlow := h.1
  simpa [depth, hunsigned] using hlow

theorem Kind.holds_integer_iff : (Kind.integer t).Holds v ↔ ∃ n, t.Holds n ∧ v = t.scalar n := by
  apply Iff.intro
  · intro h
    cases v with
    | int n =>
      obtain ⟨hsigned, hn⟩ := h
      exact ⟨n, hn, by rw [IntegerType.scalar, if_pos hsigned]⟩
    | uint n =>
      obtain ⟨hunsigned, hn⟩ := h
      exact ⟨n, hn, by simp [IntegerType.scalar, hunsigned]⟩
    | _ => exact h.elim
  · rintro ⟨n, hn, rfl⟩
    unfold IntegerType.scalar
    split
    · next hsigned => exact ⟨hsigned, hn⟩
    · next hunsigned =>
      have hunsigned := Bool.eq_false_iff.mpr hunsigned
      refine ⟨hunsigned, ?_⟩
      rwa [Int.toNat_of_nonneg (hn.nonneg hunsigned)]

theorem IntegerType.Holds.encode_scalar (h : t.Holds n) :
    (t.scalar n).encode = String.ofList (Integer.render n) := by
  unfold IntegerType.scalar
  split
  · rfl
  · next hunsigned =>
    have hpos := h.nonneg (Bool.eq_false_iff.mpr hunsigned)
    have habs : n.natAbs = n.toNat := by omega
    rw [Scalar.encode, Integer.render, if_neg (Int.not_lt.mpr hpos), habs]

/-- A number that is written as a value of one type is read as a value of another one if that
holds it, and is rejected if not. -/
theorem IntegerType.Holds.decode_scalar (h : t.Holds n) (u : IntegerType) :
    (Kind.integer u).decode (t.scalar n).encode =
      if u.Holds n then .ok (u.scalar n) else .error (Integer.misfit u n) := by
  have hdecode : (Kind.integer u).decode (t.scalar n).encode =
      (Integer.read u (Integer.render n)).map u.scalar := by
    rw [h.encode_scalar, Kind.decode, String.toList_ofList]
    rfl
  rw [hdecode]
  split
  · next hu => rw [Integer.read_render.mpr ⟨hu, rfl⟩, Except.map]
  · next hu => rw [Integer.read_render_of_not_holds hu, Except.map]

end

/-! ## Decimals -/

/-- A decimal is read back as the same number, though not always with the same scale. -/
theorem Kind.decode_encode_decimal {d : Decimal} (h : Decimal.scaleInRange d.scale = true) :
    Kind.decimal.decode (Scalar.decimal d).encode = .ok (.decimal d.shown) := by
  simp [Kind.decode, Scalar.encode, Decimal.read?_render h]

/-! ## Values and their texts -/

/-- Booleans, characters, texts and identifiers are read back from their texts, decimals as the
same number, and an integer of any type by the types that hold it; the others reject it. -/
theorem Kind.codecs_invert :
    (∀ k v, k ∈ [Kind.bool, .char, .string, .uuid] → k.Holds v → k.decode v.encode = .ok v) ∧
    (∀ d : Decimal, Kind.decimal.Holds (.decimal d) →
      ∃ e : Decimal, Kind.decimal.decode (Scalar.decimal d).encode = .ok (.decimal e) ∧
        e.value = d.value ∧ e.compare d = .eq) ∧
    (∀ (t : IntegerType) v, (Kind.integer t).Holds v ↔ ∃ n, t.Holds n ∧ v = t.scalar n) ∧
    (∀ (t u : IntegerType) (n : Int), t.Holds n →
      (Kind.integer u).decode (t.scalar n).encode =
        if u.Holds n then .ok (u.scalar n) else .error (Integer.misfit u n)) := by
  refine ⟨?exact, ?decimal, fun t v => holds_integer_iff, fun t u n h => h.decode_scalar u⟩
  case exact =>
    intro k v hk hv
    have hexact : k.isExact = true := by
      simp only [List.mem_cons, List.not_mem_nil, or_false] at hk
      obtain rfl | rfl | rfl | rfl := hk <;> rfl
    exact hv.decode_encode hexact
  case decimal =>
    intro d hd
    have hvalue := d.value_shown
    refine ⟨d.shown, decode_encode_decimal hd, hvalue, ?_⟩
    rw [Decimal.compare_eq, hvalue, compare_eq_iff_eq]

/-- The greatest identifier, a decimal with the greatest scale, and numbers of 64 bits that
another type takes or rejects. -/
theorem Kind.codecs_invert_limits :
    Kind.uuid.decode (Scalar.uuid ⟨Nat.pow 2 128 - 1⟩).encode =
      .ok (.uuid ⟨Nat.pow 2 128 - 1⟩) ∧
    (∃ e : Decimal, Kind.decimal.decode (Scalar.decimal ⟨-1203, 2 ^ 63 - 1⟩).encode =
        .ok (.decimal e) ∧
      e.value = Decimal.value ⟨-1203, 2 ^ 63 - 1⟩ ∧ e.compare ⟨-1203, 2 ^ 63 - 1⟩ = .eq) ∧
    (Kind.integer ⟨true, .w8⟩).decode (Scalar.uint 127).encode = .ok (.int 127) ∧
    (Kind.integer ⟨false, .w64⟩).decode (Scalar.int (-1)).encode = .error .invalidDigit ∧
    (Kind.integer ⟨true, .w64⟩).decode (Scalar.uint (Nat.pow 2 63)).encode =
      .error .integerTooLarge := by
  obtain ⟨exact, decimal, -, integer⟩ := codecs_invert
  refine ⟨exact .uuid (.uuid ⟨Nat.pow 2 128 - 1⟩) (by decide) (by decide),
    decimal ⟨-1203, 2 ^ 63 - 1⟩ (by decide), ?narrow, ?unsigned, ?signed⟩
  case narrow => exact integer ⟨false, .w64⟩ ⟨true, .w8⟩ 127 (by decide)
  case unsigned => exact integer ⟨true, .w64⟩ ⟨false, .w64⟩ (-1) (by decide)
  case signed => exact integer ⟨false, .w64⟩ ⟨true, .w64⟩ (Nat.pow 2 63) (by decide)

/-- A float that is a number is read back with the same bits, and one that is not as one that
is not. -/
theorem Kind.decode_encode_float (f : BinaryFormat) (x : Binary) :
    ∃ y, (Kind.float f).decode (Scalar.float f x).encode = .ok (.float f y) ∧
      if x.isNaN f then y.isNaN f = true else y = x := by
  have hdecode : (Kind.float f).decode (Scalar.float f x).encode =
      (Binary.read f (x.render Binary.literalLayout f)).map (.float f) := by
    rw [Kind.decode, Scalar.encode, String.toList_ofList]
  rw [hdecode]
  cases hx : x.isNaN f with
  | true =>
    have hnan : (⟨false, f.infinity + 1⟩ : Binary).isNaN f = true :=
      decide_eq_true (Nat.lt_succ_self f.infinity)
    rw [Binary.read_render_of_isNaN _ hx]
    exact ⟨_, rfl, by rwa [if_pos rfl]⟩
  | false =>
    rw [Binary.read_render _ hx]
    exact ⟨x, rfl, by rw [if_neg Bool.false_ne_true]⟩

end FilterQuery
