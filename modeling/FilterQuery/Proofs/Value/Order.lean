import FilterQuery.Proofs.Value.Decoding
import FilterQuery.Value.Scalar
import Mathlib

namespace FilterQuery

theorem compare_eq_compare {α β : Type} [LinearOrder α] [LinearOrder β] {a b : α} {x y : β}
    (hlt : a < b ↔ x < y) (hgt : b < a ↔ y < x) : compare a b = compare x y := by
  rcases lt_trichotomy a b with h | rfl | h
  · rw [compare_lt_iff_lt.mpr h, compare_lt_iff_lt.mpr (hlt.mp h)]
  · have hxy : x = y := le_antisymm (not_lt.mp fun h => lt_irrefl a (hgt.mpr h))
      (not_lt.mp fun h => lt_irrefl a (hlt.mpr h))
    rw [compare_eq_iff_eq.mpr rfl, compare_eq_iff_eq.mpr hxy]
  · rw [compare_gt_iff_gt.mpr h, compare_gt_iff_gt.mpr (hgt.mp h)]

theorem compare_eq_compare_of_ne {α β : Type} [LinearOrder α] [LinearOrder β] {a b : α} {x y : β}
    (hne : a ≠ b) (hlt : a < b → x < y) (hgt : b < a → y < x) : compare a b = compare x y := by
  rcases lt_or_gt_of_ne hne with h | h
  · rw [compare_lt_iff_lt.mpr h, compare_lt_iff_lt.mpr (hlt h)]
  · rw [compare_gt_iff_gt.mpr h, compare_gt_iff_gt.mpr (hgt h)]

/-! ## Floats -/

namespace BinaryFormat

variable {f : BinaryFormat} {m n : Nat}

theorem units_strictMono : StrictMono f.units := by
  intro m n hmn
  have hpos : 0 < Nat.pow 2 f.fractionBits := Nat.two_pow_pos f.fractionBits
  unfold units
  generalize Nat.pow 2 f.fractionBits = unit at hpos
  dsimp only
  have hfraction := Nat.mod_lt m hpos
  -- At one exponent the fractions decide. A greater exponent outweighs any fraction, as the
  -- leading unit is counted at least once more than all that the lower exponent allows.
  rcases Nat.eq_or_lt_of_le (Nat.div_le_div_right (c := unit) hmn.le) with hexponent | hexponent
  · have hless : m % unit < n % unit := by
      have hm := Nat.div_add_mod m unit
      have hn := Nat.div_add_mod n unit
      rw [hexponent] at hm
      omega
    rw [hexponent]
    split
    · exact hless
    · exact Nat.mul_lt_mul_of_pos_right (Nat.add_lt_add_left hless unit) (Nat.two_pow_pos _)
  · rw [if_neg (Nat.ne_zero_of_lt hexponent)]
    have hlow : unit * Nat.pow 2 (n / unit - 1) ≤ (unit + n % unit) * Nat.pow 2 (n / unit - 1) :=
      Nat.mul_le_mul_right _ (Nat.le_add_right _ _)
    split
    · calc m % unit < unit := hfraction
        _ ≤ unit * Nat.pow 2 (n / unit - 1) := Nat.le_mul_of_pos_right _ (Nat.two_pow_pos _)
        _ ≤ (unit + n % unit) * Nat.pow 2 (n / unit - 1) := hlow
    · next hzero =>
      have hpow : 2 * Nat.pow 2 (m / unit - 1) ≤ Nat.pow 2 (n / unit - 1) := by
        calc 2 * Nat.pow 2 (m / unit - 1) = Nat.pow 2 (m / unit - 1 + 1) := (Nat.pow_succ').symm
          _ = Nat.pow 2 (m / unit) := by rw [Nat.sub_add_cancel (Nat.pos_of_ne_zero hzero)]
          _ ≤ Nat.pow 2 (n / unit - 1) :=
            Nat.pow_le_pow_right (by decide) (Nat.le_sub_one_of_lt hexponent)
      calc (unit + m % unit) * Nat.pow 2 (m / unit - 1)
          < (unit * 2) * Nat.pow 2 (m / unit - 1) :=
            Nat.mul_lt_mul_of_pos_right (by omega) (Nat.two_pow_pos _)
        _ = unit * (2 * Nat.pow 2 (m / unit - 1)) := Nat.mul_assoc _ _ _
        _ ≤ unit * Nat.pow 2 (n / unit - 1) := Nat.mul_le_mul_left _ hpow
        _ ≤ (unit + n % unit) * Nat.pow 2 (n / unit - 1) := hlow

noncomputable def value (f : BinaryFormat) (magnitude : Nat) : EReal :=
  if magnitude = f.infinity then ⊤ else ((f.units magnitude / 2 ^ f.scale : ℝ) : EReal)

theorem value_zero : f.value 0 = 0 := by
  cases f <;> simp [value, infinity, units, exponentBits, fractionBits]

theorem value_lt (hn : n ≤ f.infinity) (h : m < n) : f.value m < f.value n := by
  rw [value, value, if_neg (h.trans_le hn).ne]
  split
  · exact EReal.coe_lt_top _
  · have hunits : (f.units m : ℝ) < f.units n := Nat.cast_lt.mpr (units_strictMono h)
    exact EReal.coe_lt_coe_iff.mpr (div_lt_div_of_pos_right hunits (by positivity))

theorem value_lt_iff (hm : m ≤ f.infinity) (hn : n ≤ f.infinity) :
    f.value m < f.value n ↔ m < n := by
  refine ⟨?_, value_lt hn⟩
  intro h
  by_contra hle
  rcases Nat.eq_or_lt_of_le (Nat.not_lt.mp hle) with rfl | hlt
  · exact lt_irrefl _ h
  · exact lt_asymm h (value_lt hm hlt)

theorem value_nonneg (hm : m ≤ f.infinity) : 0 ≤ f.value m := by
  rw [← value_zero (f := f)]
  exact not_lt.mp fun h => Nat.not_lt_zero m ((value_lt_iff hm (Nat.zero_le _)).mp h)

theorem value_pos_iff (hm : m ≤ f.infinity) : 0 < f.value m ↔ 0 < m := by
  rw [← value_zero (f := f)]
  exact value_lt_iff (Nat.zero_le _) hm

end BinaryFormat

namespace Binary

variable {f : BinaryFormat} {x y : Binary}

/-- The number that a floating-point number stands for, if it does stand for one. -/
noncomputable def value (f : BinaryFormat) (x : Binary) : EReal :=
  if x.negative then -f.value x.magnitude else f.value x.magnitude

theorem rank_lt_iff (hx : x.isNaN f = false) (hy : y.isNaN f = false) :
    x.rank < y.rank ↔ x.value f < y.value f := by
  have hx : x.magnitude ≤ f.infinity := Nat.not_lt.mp (of_decide_eq_false hx)
  have hy : y.magnitude ≤ f.infinity := Nat.not_lt.mp (of_decide_eq_false hy)
  have hx0 := BinaryFormat.value_nonneg hx
  have hy0 := BinaryFormat.value_nonneg hy
  cases hxs : x.negative <;> cases hys : y.negative <;>
    simp only [rank, value, hxs, hys, if_true, if_false, Bool.false_eq_true]
  case false.false =>
    rw [BinaryFormat.value_lt_iff hx hy]
    omega
  case false.true =>
    have hle : -f.value y.magnitude ≤ f.value x.magnitude := (EReal.neg_le_zero.mpr hy0).trans hx0
    simp only [not_lt.mpr hle, iff_false]
    omega
  case true.false =>
    -- Minus zero is zero, so it is not less than every number without a sign.
    rcases Nat.eq_zero_or_pos x.magnitude with hzero | hpos
    · rw [hzero, BinaryFormat.value_zero, neg_zero, BinaryFormat.value_pos_iff hy]
      omega
    · have hlt : -f.value x.magnitude < f.value y.magnitude :=
        (EReal.neg_lt_zero.mpr ((BinaryFormat.value_pos_iff hx).mpr hpos)).trans_le hy0
      simp only [hlt, iff_true]
      omega
  case true.true =>
    rw [EReal.neg_lt_neg_iff, BinaryFormat.value_lt_iff hy hx]
    omega

/-- Numbers compare as the values that they stand for, and nothing else compares. -/
theorem compare_eq_some_iff {o : Ordering} :
    x.compare f y = some o ↔
      (x.isNaN f = false ∧ y.isNaN f = false) ∧ Ord.compare (x.value f) (y.value f) = o := by
  rw [compare]
  cases hx : x.isNaN f with
  | true => simp
  | false =>
    cases hy : y.isNaN f with
    | true => simp
    | false =>
      have hvalue : Ord.compare x.rank y.rank = Ord.compare (x.value f) (y.value f) :=
        compare_eq_compare (rank_lt_iff hx hy) (rank_lt_iff hy hx)
      simp [hvalue]

end Binary

/-! ## Decimals -/

namespace Text

theorem lt_pow_length_digits (n : Nat) : n < Nat.pow 10 (digits n).length := by
  simpa using ofDigits_lt (allDigits_digits n)

theorem pow_length_digits_le {n : Nat} (h : n ≠ 0) : Nat.pow 10 ((digits n).length - 1) ≤ n := by
  by_contra hlt
  cases hlength : (digits n).length - 1 with
  | zero =>
    rw [hlength] at hlt
    exact hlt (Nat.one_le_iff_ne_zero.mpr h)
  | succ width =>
    rw [hlength] at hlt
    have := length_digits_le (Nat.not_le.mp hlt)
    omega

end Text

namespace Decimal

variable {a b : Decimal}

def value (d : Decimal) : ℚ :=
  d.digits / 10 ^ d.scale

theorem scale_pos (d : Decimal) : (0 : ℚ) < 10 ^ d.scale :=
  zpow_pos (by norm_num) _

theorem value_pos_iff {d : Decimal} : 0 < d.value ↔ 0 < d.digits := by
  rw [value, div_pos_iff_of_pos_right d.scale_pos, Int.cast_pos]

theorem value_neg_iff {d : Decimal} : d.value < 0 ↔ d.digits < 0 := by
  rw [value, div_lt_iff₀ d.scale_pos, zero_mul, Int.cast_lt_zero]

theorem abs_value (d : Decimal) : |d.value| = d.digits.natAbs / 10 ^ d.scale := by
  rw [value, abs_div, abs_of_pos d.scale_pos, Nat.cast_natAbs, Int.cast_abs]

theorem abs_value_lt (d : Decimal) : |d.value| < 10 ^ d.order := by
  have hdigits : (d.digits.natAbs : ℚ) < 10 ^ (Text.digits d.digits.natAbs).length := by
    exact_mod_cast Text.lt_pow_length_digits d.digits.natAbs
  rw [abs_value, order, zpow_sub₀ (by norm_num), zpow_natCast]
  exact div_lt_div_of_pos_right hdigits d.scale_pos

theorem le_abs_value {d : Decimal} (h : d.digits ≠ 0) : 10 ^ (d.order - 1) ≤ |d.value| := by
  have hpos : 1 ≤ (Text.digits d.digits.natAbs).length :=
    List.length_pos_iff.mpr (Text.digits_ne_nil _)
  have hdigits : (10 : ℚ) ^ ((Text.digits d.digits.natAbs).length - 1) ≤ d.digits.natAbs := by
    exact_mod_cast Text.pow_length_digits_le (Int.natAbs_ne_zero.mpr h)
  have horder : d.order - 1 = ((Text.digits d.digits.natAbs).length - 1 : ℕ) - d.scale := by
    rw [order, Nat.cast_sub hpos]
    ring
  rw [abs_value, horder, zpow_sub₀ (by norm_num), zpow_natCast]
  exact div_le_div_of_nonneg_right hdigits d.scale_pos.le

theorem abs_value_lt_of_order_lt (hb : b.digits ≠ 0) (h : a.order < b.order) :
    |a.value| < |b.value| :=
  calc |a.value| < 10 ^ a.order := a.abs_value_lt
    _ ≤ 10 ^ (b.order - 1) := zpow_le_zpow_right₀ (by norm_num) (Int.le_sub_one_of_lt h)
    _ ≤ |b.value| := le_abs_value hb

theorem value_lt_of_sign_lt (h : a.digits.sign < b.digits.sign) : a.value < b.value := by
  rcases lt_or_ge a.digits 0 with ha | ha
  · have hb : 0 ≤ b.digits := by
      rw [Int.sign_eq_neg_one_of_neg ha] at h
      exact Int.sign_nonneg_iff.mp (Int.add_one_le_of_lt h)
    exact (value_neg_iff.mpr ha).trans_le (not_lt.mp fun hlt => hb.not_gt (value_neg_iff.mp hlt))
  · have hb : 0 < b.digits := Int.sign_pos_iff.mp ((Int.sign_nonneg_iff.mpr ha).trans_lt h)
    have ha : ¬ 0 < a.digits := by
      intro ha
      rw [Int.sign_eq_one_of_pos ha, Int.sign_eq_one_of_pos hb] at h
      exact lt_irrefl 1 h
    exact (not_lt.mp (value_pos_iff.not.mpr ha)).trans_lt (value_pos_iff.mpr hb)

/-- At the greater of two scales both numbers are whole. -/
theorem value_mul (a b : Decimal) :
    a.value * 10 ^ max a.scale b.scale = (a.digits * Nat.pow 10 (b.scale - a.scale).toNat : ℤ) := by
  have hscale : max a.scale b.scale = a.scale + (b.scale - a.scale).toNat := by omega
  rw [value, hscale, zpow_add₀ (by norm_num), zpow_natCast, ← mul_assoc,
    div_mul_cancel₀ _ a.scale_pos.ne', Nat.pow_eq]
  push_cast
  rfl

theorem scaled_lt_iff : a.digits * Nat.pow 10 (b.scale - a.scale).toNat <
      b.digits * Nat.pow 10 (a.scale - b.scale).toNat ↔ a.value < b.value := by
  rw [← Int.cast_lt (R := ℚ), ← value_mul, ← value_mul, max_comm b.scale]
  exact mul_lt_mul_iff_left₀ (zpow_pos (by norm_num) _)

theorem value_lt_of_pos (ha : 0 < a.digits) (hb : 0 < b.digits) (h : a.order < b.order) :
    a.value < b.value := by
  have habs := abs_value_lt_of_order_lt hb.ne' h
  rwa [abs_of_pos (value_pos_iff.mpr ha), abs_of_pos (value_pos_iff.mpr hb)] at habs

theorem value_lt_of_neg (ha : a.digits < 0) (hb : b.digits < 0) (h : b.order < a.order) :
    a.value < b.value := by
  have habs := abs_value_lt_of_order_lt ha.ne h
  rw [abs_of_neg (value_neg_iff.mpr ha), abs_of_neg (value_neg_iff.mpr hb)] at habs
  exact neg_lt_neg_iff.mp habs

/-- Decimals compare as the rational numbers that they stand for. -/
theorem compare_eq (a b : Decimal) : a.compare b = Ord.compare a.value b.value := by
  unfold compare
  split
  · next hsign => exact compare_eq_compare_of_ne hsign value_lt_of_sign_lt value_lt_of_sign_lt
  next hsign =>
  have hsign : a.digits.sign = b.digits.sign := not_not.mp hsign
  split
  · next hzero =>
    have hb : b.digits = 0 := by
      rwa [hzero, Int.sign_zero, eq_comm, Int.sign_eq_zero_iff_zero] at hsign
    have hvalue : a.value = b.value := by simp [value, hzero, hb]
    exact (compare_eq_iff_eq.mpr hvalue).symm
  next hzero =>
  split
  · next horder =>
    split
    · next ha =>
      have hb : 0 < b.digits := by
        rwa [← Int.sign_eq_one_iff_pos, ← hsign, Int.sign_eq_one_iff_pos]
      exact compare_eq_compare_of_ne horder (value_lt_of_pos ha hb) (value_lt_of_pos hb ha)
    · next hpos =>
      have ha : a.digits < 0 := lt_of_le_of_ne (not_lt.mp hpos) hzero
      have hb : b.digits < 0 := by
        rwa [← Int.sign_eq_neg_one_iff_neg, ← hsign, Int.sign_eq_neg_one_iff_neg]
      exact compare_eq_compare_of_ne horder.symm (value_lt_of_neg ha hb) (value_lt_of_neg hb ha)
  · exact compare_eq_compare scaled_lt_iff scaled_lt_iff

end Decimal

/-! ## Values -/

namespace DateTime

variable {a b : DateTime}

theorem compare_eq_lt_iff :
    a.compare b = .lt ↔ a.seconds < b.seconds ∨ a.seconds = b.seconds ∧ a.nanos < b.nanos := by
  rw [compare, Ordering.then_eq_lt, compare_lt_iff_lt, compare_eq_iff_eq, compare_lt_iff_lt]

theorem compare_eq_eq_iff : a.compare b = .eq ↔ a.seconds = b.seconds ∧ a.nanos = b.nanos := by
  rw [compare, Ordering.then_eq_eq, compare_eq_iff_eq, compare_eq_iff_eq]

theorem compare_eq_gt_iff :
    a.compare b = .gt ↔ b.seconds < a.seconds ∨ b.seconds = a.seconds ∧ b.nanos < a.nanos := by
  rw [compare, Ordering.then_eq_gt, compare_gt_iff_gt, compare_eq_iff_eq, compare_gt_iff_gt,
    eq_comm]

end DateTime

namespace Scalar

/-- Equality of what values stand for. -/
def Equal : Scalar → Scalar → Prop
  | .bool a, .bool b => a = b
  | .char a, .char b => a = b
  | .int a, .int b => a = b
  | .uint a, .uint b => a = b
  | .float f a, .float g b =>
    f = g ∧ (a.isNaN f = false ∧ b.isNaN f = false) ∧ a.value f = b.value f
  | .decimal a, .decimal b => a.value = b.value
  | .string a, .string b => a = b
  | .dateTime a, .dateTime b => a.seconds = b.seconds ∧ a.nanos = b.nanos
  | .duration a, .duration b => a.nanos = b.nanos
  | .uuid a, .uuid b => a.value = b.value
  | _, _ => False

/-- The order of what values stand for. -/
def Less : Scalar → Scalar → Prop
  | .bool a, .bool b => a < b
  | .char a, .char b => a < b
  | .int a, .int b => a < b
  | .uint a, .uint b => a < b
  | .float f a, .float g b =>
    f = g ∧ (a.isNaN f = false ∧ b.isNaN f = false) ∧ a.value f < b.value f
  | .decimal a, .decimal b => a.value < b.value
  | .string a, .string b => a < b
  | .dateTime a, .dateTime b => a.seconds < b.seconds ∨ a.seconds = b.seconds ∧ a.nanos < b.nanos
  | .duration a, .duration b => a.nanos < b.nanos
  | .uuid a, .uuid b => a.value < b.value
  | _, _ => False

variable {a b : Scalar}

theorem compare_eq_eq_iff : a.compare b = some .eq ↔ a.Equal b := by
  cases a with
  | float f x =>
    cases b with
    | float g y =>
      rw [compare, Option.ite_none_right_eq_some, Binary.compare_eq_some_iff, compare_eq_iff_eq]
      rfl
    | _ => simp [compare, Equal]
  | decimal d => cases b <;> simp [compare, Equal, Decimal.compare_eq]
  | dateTime t => cases b <;> simp [compare, Equal, DateTime.compare_eq_eq_iff]
  | _ => cases b <;> simp [compare, Equal]

theorem compare_eq_lt_iff : a.compare b = some .lt ↔ a.Less b := by
  cases a with
  | float f x =>
    cases b with
    | float g y =>
      rw [compare, Option.ite_none_right_eq_some, Binary.compare_eq_some_iff, compare_lt_iff_lt]
      rfl
    | _ => simp [compare, Less]
  | decimal d => cases b <;> simp [compare, Less, Decimal.compare_eq, compare_lt_iff_lt]
  | dateTime t => cases b <;> simp [compare, Less, DateTime.compare_eq_lt_iff]
  | _ => cases b <;> simp [compare, Less, compare_lt_iff_lt]

theorem compare_eq_gt_iff : a.compare b = some .gt ↔ b.Less a := by
  cases a with
  | float f x =>
    cases b with
    | float g y =>
      rw [compare, Option.ite_none_right_eq_some, Binary.compare_eq_some_iff, compare_gt_iff_gt]
      apply Iff.intro
      · rintro ⟨rfl, ⟨hx, hy⟩, hlt⟩
        exact ⟨rfl, ⟨hy, hx⟩, hlt⟩
      · rintro ⟨rfl, ⟨hy, hx⟩, hlt⟩
        exact ⟨rfl, ⟨hx, hy⟩, hlt⟩
    | _ => simp [compare, Less]
  | decimal d => cases b <;> simp [compare, Less, Decimal.compare_eq, compare_gt_iff_gt]
  | dateTime t => cases b <;> simp [compare, Less, DateTime.compare_eq_gt_iff]
  | _ => cases b <;> simp [compare, Less, compare_gt_iff_gt]

end Scalar

end FilterQuery
