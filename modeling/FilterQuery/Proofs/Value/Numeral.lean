import FilterQuery.Text.Digits

namespace FilterQuery.Text

/-- A row of digits with at most one point in it, and the digits before and after the point. -/
inductive Numeral : List Char → List Char → List Char → Prop
  | whole {ds : List Char} : ds ≠ [] → allDigits ds = true → Numeral ds ds []
  | pointed {ws fs : List Char} : ws ≠ [] → allDigits (ws ++ fs) = true →
      Numeral (ws ++ '.' :: fs) ws fs

/-- Whether a character can stand between a number and its exponent. -/
def isMark (c : Char) : Bool :=
  c == 'e' || c == 'E'

/-- Digits with a point after the first of them, if there are more. -/
def scientific : List Char → List Char
  | [] => []
  | [d] => [d]
  | d :: ds => d :: '.' :: ds

namespace Numeral

variable {cs ws fs ds : List Char}

theorem allDigits (h : Numeral cs ws fs) : Text.allDigits (ws ++ fs) = true := by
  cases h with
  | whole _ hdigits => simpa using hdigits
  | pointed _ hdigits => exact hdigits

theorem ne_nil (h : Numeral cs ws fs) : ws ≠ [] := by
  cases h with
  | whole hne => exact hne
  | pointed hne => exact hne

theorem head (h : Numeral cs ws fs) : ∃ c rest, cs = c :: rest ∧ c.isDigit = true := by
  obtain ⟨c, rest, rfl⟩ := List.exists_cons_of_ne_nil h.ne_nil
  have hdigit := isDigit_of_allDigits h.allDigits List.mem_cons_self
  cases h with
  | whole => exact ⟨c, rest, rfl, hdigit⟩
  | pointed => exact ⟨c, _, rfl, hdigit⟩

theorem mem_cases {c : Char} (h : Numeral cs ws fs) (hc : c ∈ cs) :
    c = '.' ∨ c.isDigit = true := by
  have hall : c = '.' ∨ c ∈ ws ++ fs := by
    cases h with
    | whole => simpa using .inr hc
    | pointed =>
      rw [List.mem_append, List.mem_cons, or_left_comm] at hc
      exact hc.imp_right List.mem_append.mpr
  exact hall.imp_right (isDigit_of_allDigits h.allDigits)

theorem not_isMark (h : Numeral cs ws fs) : ∀ c ∈ cs, (!isMark c) = true := by
  intro c hc
  rcases h.mem_cases hc with rfl | hdigit
  · rfl
  · simpa [isMark] using ⟨ne_of_isDigit hdigit rfl, ne_of_isDigit hdigit rfl⟩

/-- The digits are found on both sides of the point, whatever sign stands before them. -/
theorem parts (h : Numeral cs ws fs) {sign : List Char} (hsign : '.' ∉ sign) :
    (splitAtFirst? '.' (sign ++ cs)).getD (sign ++ cs, []) = (sign ++ ws, fs) := by
  have hwhole : '.' ∉ sign ++ ws := by
    have hws := (allDigits_append.mp h.allDigits).1
    simpa using ⟨hsign, not_mem_of_allDigits hws rfl⟩
  cases h with
  | whole => rw [splitAtFirst?_eq_none hwhole, Option.getD_none]
  | pointed => rw [← List.append_assoc, splitAtFirst?_append fs hwhole, Option.getD_some]

/-! ## Numerals with given digits -/

theorem scientific (hne : ds ≠ []) (hdigits : Text.allDigits ds = true) :
    Numeral (scientific ds) (ds.take 1) (ds.drop 1) := by
  match ds with
  | [] => exact absurd rfl hne
  | [d] => exact .whole hne hdigits
  | d :: e :: es =>
    have hpointed : Numeral ([d] ++ '.' :: e :: es) [d] (e :: es) := .pointed (by simp) hdigits
    exact hpointed

theorem inner {n : Nat} (hpos : 0 < n) (hne : ds ≠ []) (hdigits : Text.allDigits ds = true) :
    Numeral (ds.take n ++ '.' :: ds.drop n) (ds.take n) (ds.drop n) := by
  have hwhole : ds.take n ≠ [] := by
    simp [List.take_eq_nil_iff, Nat.ne_of_gt hpos, hne]
  exact .pointed hwhole (by rwa [List.take_append_drop])

theorem below (n : Nat) (hdigits : Text.allDigits ds = true) :
    Numeral ("0.".toList ++ List.replicate n '0' ++ ds) ['0'] (List.replicate n '0' ++ ds) := by
  have hall : Text.allDigits (['0'] ++ (List.replicate n '0' ++ ds)) = true := by
    simp only [allDigits_append]
    exact ⟨rfl, allDigits_zeros n, hdigits⟩
  have hpointed := Numeral.pointed (by simp) hall
  exact hpointed

theorem above (n : Nat) (hne : ds ≠ []) (hdigits : Text.allDigits ds = true) :
    Numeral (ds ++ List.replicate n '0') (ds ++ List.replicate n '0') [] :=
  .whole (by simp [hne]) (allDigits_append.mpr ⟨hdigits, allDigits_zeros n⟩)

end Numeral

theorem ofDigits_below (n : Nat) (ds : List Char) :
    ofDigits (['0'] ++ (List.replicate n '0' ++ ds)) = ofDigits ds := by
  have hzero : ofDigits ['0'] = 0 := rfl
  rw [ofDigits_append, ofDigits_append, ofDigits_zeros, hzero]
  simp

theorem ofDigits_above (n : Nat) (ds : List Char) :
    ofDigits (ds ++ List.replicate n '0') = ofDigits ds * Nat.pow 10 n := by
  rw [ofDigits_append, ofDigits_zeros, List.length_replicate, Nat.add_zero]

theorem toLower_of_isDigit {c : Char} (h : c.isDigit = true) : c.toLower = c := by
  have hdigit := Bool.and_eq_true_iff.mp h
  have hhigh : c.toNat ≤ 57 := UInt32.le_iff_toNat_le.mp (of_decide_eq_true hdigit.2)
  unfold Char.toLower
  split
  · next hupper =>
    have hlow : 65 ≤ c.toNat := UInt32.le_iff_toNat_le.mp hupper.1
    omega
  · rfl

/-! ## Numerals before an exponent -/

section

variable {base after : List Char} {mark : Char} (h : ∀ c ∈ base, (!isMark c) = true)

include h

theorem takeWhile_unmarked : base.takeWhile (fun c => !isMark c) = base := by
  have htake := @List.takeWhile_append_of_pos _ (fun c => !isMark c) base [] h
  simpa using htake

theorem dropWhile_unmarked : base.dropWhile (fun c => !isMark c) = [] := by
  have hdrop := @List.dropWhile_append_of_pos _ (fun c => !isMark c) base [] h
  simpa using hdrop

theorem takeWhile_marked (hmark : isMark mark = true) :
    (base ++ mark :: after).takeWhile (fun c => !isMark c) = base := by
  rw [List.takeWhile_append_of_pos h, List.takeWhile_cons_of_neg (by simp [hmark]),
    List.append_nil]

theorem dropWhile_marked (hmark : isMark mark = true) :
    (base ++ mark :: after).dropWhile (fun c => !isMark c) = mark :: after := by
  rw [List.dropWhile_append_of_pos h, List.dropWhile_cons_of_neg (by simp [hmark])]

end

end FilterQuery.Text
