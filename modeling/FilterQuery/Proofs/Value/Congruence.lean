import FilterQuery.Proofs.Typing
import FilterQuery.Proofs.Value.Order

namespace FilterQuery

def ExactlyOne (p q r : Prop) : Prop :=
  p ∧ ¬ q ∧ ¬ r ∨ ¬ p ∧ q ∧ ¬ r ∨ ¬ p ∧ ¬ q ∧ r

namespace Scalar

variable {a b c : Scalar}

/-! ## Equal values compare alike -/

theorem Equal.symm (h : a.Equal b) : b.Equal a := by
  cases a with
  | float f x =>
    cases b with
    | float g y =>
      obtain ⟨rfl, hnumbers, hvalue⟩ := h
      exact ⟨rfl, hnumbers.symm, hvalue.symm⟩
    | _ => cases h
  | dateTime t =>
    cases b with
    | dateTime u => exact ⟨Eq.symm h.1, Eq.symm h.2⟩
    | _ => cases h
  | _ => cases b <;> first | exact Eq.symm h | cases h

theorem Equal.compare_left (h : a.Equal b) (c : Scalar) : a.compare c = b.compare c := by
  cases a with
  | float f x =>
    cases b with
    | float g y =>
      obtain ⟨rfl, ⟨hx, hy⟩, hvalue⟩ := h
      cases c with
      | float k z =>
        have hcompare : x.compare f z = y.compare f z := by
          apply Option.ext
          intro o
          rw [Binary.compare_eq_some_iff, Binary.compare_eq_some_iff, hx, hy, hvalue]
        simp only [compare, hcompare]
      | _ => rfl
    | _ => cases h
  | decimal d =>
    cases b with
    | decimal e =>
      have hvalue : d.value = e.value := h
      cases c with
      | decimal x => simp only [compare, Decimal.compare_eq, hvalue]
      | _ => rfl
    | _ => cases h
  | dateTime t =>
    cases b with
    | dateTime u =>
      cases c with
      | dateTime v => simp only [compare, DateTime.compare, h.1, h.2]
      | _ => rfl
    | _ => cases h
  | duration d =>
    cases b with
    | duration e =>
      have hnanos : d.nanos = e.nanos := h
      cases c <;> simp only [compare, hnanos]
    | _ => cases h
  | uuid u =>
    cases b with
    | uuid v =>
      have hvalue : u.value = v.value := h
      cases c <;> simp only [compare, hvalue]
    | _ => cases h
  | _ =>
    cases b <;> cases h
    rfl

theorem compare_swap (a b : Scalar) : b.compare a = (a.compare b).map Ordering.swap := by
  cases h : a.compare b with
  | none =>
    rw [compare_eq_none_iff] at h
    rw [Option.map_none, compare_eq_none_iff, ne_comm, or_comm (a := _ = true)]
    exact h
  | some o =>
    cases o with
    | lt => exact compare_eq_gt_iff.mpr (compare_eq_lt_iff.mp h)
    | eq => exact compare_eq_eq_iff.mpr (compare_eq_eq_iff.mp h).symm
    | gt => exact compare_eq_lt_iff.mpr (compare_eq_gt_iff.mp h)

theorem Equal.compare_right (h : a.Equal b) (c : Scalar) : c.compare a = c.compare b := by
  rw [compare_swap a, compare_swap b, h.compare_left]

/-! ## The order of values -/

theorem Equal.trans (hab : a.Equal b) (hbc : b.Equal c) : a.Equal c := by
  rw [← compare_eq_eq_iff, hab.compare_left, compare_eq_eq_iff]
  exact hbc

theorem Equal.trans_less (hab : a.Equal b) (hbc : b.Less c) : a.Less c := by
  rw [← compare_eq_lt_iff, hab.compare_left, compare_eq_lt_iff]
  exact hbc

theorem Less.trans_equal (hab : a.Less b) (hbc : b.Equal c) : a.Less c := by
  rw [← compare_eq_lt_iff, ← hbc.compare_right, compare_eq_lt_iff]
  exact hab

theorem Less.trans (hab : a.Less b) (hbc : b.Less c) : a.Less c := by
  cases b with
  | float g y =>
    cases a with
    | float f x =>
      cases c with
      | float k z =>
        obtain ⟨rfl, ⟨hx, _⟩, hxy⟩ := hab
        obtain ⟨rfl, ⟨_, hz⟩, hyz⟩ := hbc
        exact ⟨rfl, ⟨hx, hz⟩, hxy.trans hyz⟩
      | _ => cases hbc
    | _ => cases hab
  | dateTime u =>
    cases a with
    | dateTime t =>
      cases c with
      | dateTime v =>
        simp only [Less] at hab hbc ⊢
        omega
      | _ => cases hbc
    | _ => cases hab
  | decimal y =>
    cases a with
    | decimal x =>
      cases c with
      | decimal z => exact lt_trans (α := ℚ) hab hbc
      | _ => cases hbc
    | _ => cases hab
  | _ =>
    cases a <;> try exact hab.elim
    all_goals cases c <;> first | exact hbc.elim | exact lt_trans hab hbc

theorem exactlyOne (h : a.compare b ≠ none) : ExactlyOne (a.Less b) (a.Equal b) (b.Less a) := by
  rw [← compare_eq_lt_iff, ← compare_eq_eq_iff, ← compare_eq_gt_iff]
  cases hcompare : a.compare b with
  | none => exact absurd hcompare h
  | some o => cases o <;> simp [ExactlyOne]

theorem not_related (h : a.compare b = none) : ¬ a.Less b ∧ ¬ a.Equal b ∧ ¬ b.Less a := by
  rw [← compare_eq_lt_iff, ← compare_eq_eq_iff, ← compare_eq_gt_iff, h]
  exact ⟨nofun, nofun, nofun⟩

end Scalar

end FilterQuery
