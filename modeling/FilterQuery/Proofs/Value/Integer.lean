import FilterQuery.Outcome
import FilterQuery.Value.Integer

namespace FilterQuery.Integer

variable {t : IntegerType} {overflow : DecodeError} {limit n m : Nat} {cs : List Char}

theorem le_foldl_digits (n : Nat) (cs : List Char) :
    n ≤ cs.foldl (fun n c => 10 * n + Text.digitValue c) n := by
  induction cs generalizing n with
  | nil => exact Nat.le_refl n
  | cons c cs ih => exact Nat.le_trans (by omega) (ih (10 * n + Text.digitValue c))

/-- Every prefix of the digits stands for a number that is no greater, so that the limit is kept
on the way if it is kept at the end. -/
theorem readDigits_eq_ok_iff (hn : n ≤ limit) :
    readDigits limit overflow n cs = .ok m ↔
      Text.allDigits cs = true ∧ m = cs.foldl (fun n c => 10 * n + Text.digitValue c) n ∧
        m ≤ limit := by
  induction cs generalizing n with
  | nil =>
    simp only [readDigits, Except.ok.injEq, Text.allDigits, List.all_nil, List.foldl_nil, true_and]
    apply Iff.intro
    · rintro rfl
      exact ⟨rfl, hn⟩
    · intro h
      obtain ⟨rfl, _⟩ := h
      rfl
  | cons c cs ih =>
    rw [readDigits]
    cases hc : c.isDigit with
    | false => simp [Text.allDigits, hc]
    | true =>
      simp only [Bool.not_true, Bool.false_eq_true, if_false, Text.allDigits, List.all_cons, hc,
        Bool.true_and, List.foldl_cons]
      split
      · next hle => exact ih hle
      · next hgt =>
        have := le_foldl_digits (10 * n + Text.digitValue c) cs
        simp only [reduceCtorEq, false_iff]
        intro h
        obtain ⟨_, rfl, hle⟩ := h
        omega

theorem readDigits_digits (n : Nat) :
    readDigits limit overflow 0 (Text.digits n) = .ok m ↔ n ≤ limit ∧ m = n := by
  have hvalue := Text.ofDigits_digits n
  rw [Text.ofDigits] at hvalue
  rw [readDigits_eq_ok_iff (Nat.zero_le limit), hvalue]
  apply Iff.intro
  · intro h
    obtain ⟨_, rfl, hm⟩ := h
    exact ⟨hm, rfl⟩
  · intro h
    obtain ⟨hn, rfl⟩ := h
    exact ⟨Text.allDigits_digits m, rfl, hn⟩

theorem read_allDigits (hne : cs ≠ []) (h : Text.allDigits cs = true) :
    read t cs = (readDigits t.height .integerTooLarge 0 cs).map Int.ofNat := by
  unfold read
  split
  · exact absurd rfl hne
  · exact absurd h (by decide)
  · exact absurd h (by decide)
  · simp [Text.allDigits] at h
  · simp [Text.allDigits] at h
  · rfl

theorem read_minus (hne : cs ≠ []) :
    read t ('-' :: cs) =
      if t.signed then
        (readDigits t.depth .integerTooSmall 0 cs).map fun n => -Int.ofNat n
      else .error .invalidDigit := by
  cases cs with
  | nil => exact absurd rfl hne
  | cons c cs => simp [read]

/-- What is written for a number is read as that number by the types that hold it, and by no
others. -/
theorem read_render {n m : Int} : read t (render n) = .ok m ↔ t.Holds n ∧ m = n := by
  have hne := Text.digits_ne_nil n.natAbs
  unfold render
  split
  · next hneg =>
    rw [read_minus hne]
    split
    · next hsigned =>
      simp only [map_eq_ok_iff, readDigits_digits, Int.ofNat_eq_natCast]
      apply Iff.intro
      · intro h
        obtain ⟨k, ⟨hk, rfl⟩, rfl⟩ := h
        exact ⟨⟨by omega, by omega⟩, by omega⟩
      · intro h
        obtain ⟨⟨hlow, _⟩, rfl⟩ := h
        exact ⟨m.natAbs, ⟨by omega, rfl⟩, by omega⟩
    · next hunsigned =>
      simp only [reduceCtorEq, false_iff, not_and]
      intro h
      obtain ⟨hlow, _⟩ := h
      simp only [IntegerType.depth, if_neg hunsigned] at hlow
      omega
  · next hpos =>
    rw [read_allDigits hne (Text.allDigits_digits _)]
    simp only [map_eq_ok_iff, readDigits_digits, Int.ofNat_eq_natCast]
    apply Iff.intro
    · intro h
      obtain ⟨k, ⟨hk, rfl⟩, rfl⟩ := h
      exact ⟨⟨by omega, by omega⟩, by omega⟩
    · intro h
      obtain ⟨⟨_, hhigh⟩, rfl⟩ := h
      exact ⟨m.natAbs, ⟨by omega, rfl⟩, by omega⟩

/-! ## Numbers that a type does not hold -/

/-- Why a number is no value of a type that does not hold it. Without negative values, a minus sign
is taken for a character that cannot stand there. -/
def misfit (t : IntegerType) (n : Int) : DecodeError :=
  if 0 ≤ n then .integerTooLarge
  else if t.signed then .integerTooSmall
  else .invalidDigit

theorem readDigits_of_limit_lt (hn : n ≤ limit) (hdigits : Text.allDigits cs = true)
    (h : limit < cs.foldl (fun n c => 10 * n + Text.digitValue c) n) :
    readDigits limit overflow n cs = .error overflow := by
  induction cs generalizing n with
  | nil => exact absurd hn (Nat.not_le.mpr h)
  | cons c cs ih =>
    have hc := Text.isDigit_of_allDigits hdigits List.mem_cons_self
    have hcs : Text.allDigits cs = true := by
      simpa [Text.allDigits, hc] using hdigits
    rw [readDigits, hc]
    simp only [Bool.not_true, Bool.false_eq_true, if_false]
    split
    · next hle => exact ih hle hcs h
    · rfl

theorem readDigits_digits_of_lt (h : limit < n) :
    readDigits limit overflow 0 (Text.digits n) = .error overflow := by
  have hvalue := Text.ofDigits_digits n
  rw [Text.ofDigits] at hvalue
  apply readDigits_of_limit_lt (Nat.zero_le limit) (Text.allDigits_digits n)
  rwa [hvalue]

theorem read_render_of_not_holds {n : Int} (h : ¬ t.Holds n) :
    read t (render n) = .error (misfit t n) := by
  have hne := Text.digits_ne_nil n.natAbs
  unfold IntegerType.Holds at h
  unfold render misfit
  by_cases hneg : n < 0
  · rw [if_pos hneg, if_neg (Int.not_le.mpr hneg), read_minus hne]
    cases t.signed with
    | true =>
      rw [if_pos rfl, if_pos rfl, readDigits_digits_of_lt (by omega)]
      rfl
    | false => rfl
  · rw [if_neg hneg, if_pos (Int.not_lt.mp hneg),
      read_allDigits hne (Text.allDigits_digits _), readDigits_digits_of_lt (by omega)]
    rfl

end FilterQuery.Integer
