import FilterQuery.Proofs.Value.Numeral
import FilterQuery.Proofs.Value.Order

namespace FilterQuery.Decimal

/-- A decimal as its text has it: zero has no scale, and the zeros that are written for a power of
ten are digits. -/
def shown (d : Decimal) : Decimal :=
  if d.digits = 0 then ⟨0, 0⟩
  else if -trailingZeros ≤ d.scale ∧ d.scale ≤ 0 then
    ⟨d.digits * Nat.pow 10 (-d.scale).toNat, 0⟩
  else d

theorem value_shown (d : Decimal) : d.shown.value = d.value := by
  unfold shown
  split
  · next hzero => simp [value, hzero]
  split
  · next hscale =>
    have hpow : (10 : ℚ) ^ (-d.scale).toNat * 10 ^ d.scale = 1 := by
      rw [← zpow_natCast, Int.toNat_of_nonneg (by omega), ← zpow_add₀ (by norm_num)]
      simp
    rw [value, value, zpow_zero, div_one, eq_div_iff d.scale_pos.ne', Nat.pow_eq]
    push_cast
    rw [mul_assoc, hpow, mul_one]
  · rfl

/-! ## Signs -/

def sign (negative : Bool) : List Char :=
  if negative then ['-'] else []

def signed (negative : Bool) (n : Nat) : Int :=
  if negative then -n else n

theorem signed_mul (negative : Bool) (m n : Nat) :
    signed negative (m * n) = signed negative m * n := by
  cases negative <;> simp [signed]

theorem signed_natAbs (n : Int) : signed (n < 0) n.natAbs = n := by
  unfold signed
  by_cases h : n < 0
  · rw [if_pos (decide_eq_true h)]
    omega
  · rw [if_neg (by simpa using h)]
    omega

theorem not_mem_sign {c : Char} (negative : Bool) (hc : c ≠ '-') : c ∉ sign negative := by
  cases negative <;> simp [sign, hc]

/-! ## The parts of a text -/

def readScaled? (base : List Char) (exponent : Int) : Option Decimal :=
  let parts := (Text.splitAtFirst? '.' base).getD (base, [])
  let scale := (parts.2.countP (· != '_') : Int) - exponent
  (readWhole? (parts.1 ++ parts.2)).bind fun digits =>
    if scaleInRange scale then some ⟨digits, scale⟩ else none

theorem read?_unmarked {base : List Char} (h : ∀ c ∈ base, (!Text.isMark c) = true) :
    read? base = readScaled? base 0 := by
  have htake := Text.takeWhile_unmarked h
  have hdrop := Text.dropWhile_unmarked h
  unfold Text.isMark at htake hdrop
  simp only [read?, htake, hdrop, Option.bind_eq_bind]
  rw [Option.bind_some, readScaled?]

theorem read?_marked {base after : List Char} {mark : Char}
    (h : ∀ c ∈ base, (!Text.isMark c) = true) (hmark : Text.isMark mark = true) :
    read? (base ++ mark :: after) = (readExponent? after).bind (readScaled? base) := by
  have htake := @Text.takeWhile_marked base after mark h hmark
  have hdrop := @Text.dropWhile_marked base after mark h hmark
  unfold Text.isMark at htake hdrop
  unfold readScaled?
  simp only [read?, htake, hdrop, Option.bind_eq_bind]

theorem readWhole?_signed {negative : Bool} {ds : List Char} (hne : ds ≠ [])
    (hdigits : Text.allDigits ds = true) :
    readWhole? (sign negative ++ ds) = some (signed negative (Text.ofDigits ds)) := by
  have hunderscore : ds.filter (· != '_') = ds := by
    rw [List.filter_eq_self]
    intro c hc
    exact bne_iff_ne.mpr (Text.ne_of_isDigit (Text.isDigit_of_allDigits hdigits hc) rfl)
  obtain ⟨c, cs, rfl⟩ := List.exists_cons_of_ne_nil hne
  have hne {d : Char} (hd : d.isDigit = false) : c ≠ d :=
    Text.ne_of_isDigit (Text.isDigit_of_allDigits hdigits List.mem_cons_self) hd
  have hminus : c ≠ '-' := hne rfl
  have hplus : c ≠ '+' := hne rfl
  have hfirst : c ≠ '_' := hne rfl
  cases negative with
  | true => simp [readWhole?, sign, signed, hfirst, hunderscore, hdigits]
  | false => simp [readWhole?, sign, signed, hfirst, hminus, hplus, hunderscore, hdigits]

theorem readExponent?_minus {n : Nat} (h : n ≤ exponentLimit) :
    readExponent? ('-' :: Text.digits n) = some (-(n : Int)) := by
  simp [readExponent?, Text.digits_ne_nil, Text.allDigits_digits, h]

theorem readExponent?_plus {n : Nat} (h : n < exponentLimit) :
    readExponent? ('+' :: Text.digits n) = some (n : Int) := by
  simp [readExponent?, Text.digits_ne_nil, Text.allDigits_digits, h]

/-! ## Numerals with a sign -/

section

variable {negative : Bool} {cs ws fs : List Char} (h : Text.Numeral cs ws fs)

include h

theorem not_isMark_signed : ∀ c ∈ sign negative ++ cs, (!Text.isMark c) = true := by
  intro c hc
  rcases List.mem_append.mp hc with hsign | hcs
  · have hminus : c = '-' := by
      by_contra hne
      exact not_mem_sign negative hne hsign
    rw [hminus]
    rfl
  · exact h.not_isMark c hcs

theorem readScaled?_numeral {scale exponent : Int} (hexponent : exponent = fs.length - scale)
    (hscale : scaleInRange scale = true) :
    readScaled? (sign negative ++ cs) exponent =
      some ⟨signed negative (Text.ofDigits (ws ++ fs)), scale⟩ := by
  have hparts := h.parts (not_mem_sign negative (c := '.') (by decide))
  have hfraction := (Text.allDigits_append.mp h.allDigits).2
  have hcount : fs.countP (· != '_') = fs.length := by
    rw [List.countP_eq_length]
    intro c hc
    exact bne_iff_ne.mpr (Text.ne_of_isDigit (Text.isDigit_of_allDigits hfraction hc) rfl)
  have hread : readWhole? (sign negative ++ ws ++ fs) =
      some (signed negative (Text.ofDigits (ws ++ fs))) := by
    rw [List.append_assoc]
    exact readWhole?_signed (List.append_ne_nil_of_left_ne_nil h.ne_nil fs) h.allDigits
  have hplaces : (fs.length : Int) - exponent = scale := by omega
  simp only [readScaled?, hparts, hread, Option.bind_some, hcount, hplaces, if_pos hscale]

theorem read?_numeral (negative : Bool) (hscale : scaleInRange fs.length = true) :
    read? (sign negative ++ cs) =
      some ⟨signed negative (Text.ofDigits (ws ++ fs)), fs.length⟩ := by
  rw [read?_unmarked (not_isMark_signed h), readScaled?_numeral h (by simp) hscale]

theorem read?_numeral_exponent (negative : Bool) {scale exponent : Int} {mark : Char}
    {after : List Char} (hmark : Text.isMark mark = true)
    (hread : readExponent? after = some exponent)
    (hexponent : exponent = fs.length - scale) (hscale : scaleInRange scale = true) :
    read? (sign negative ++ (cs ++ mark :: after)) =
      some ⟨signed negative (Text.ofDigits (ws ++ fs)), scale⟩ := by
  rw [← List.append_assoc, read?_marked (not_isMark_signed h) hmark, hread, Option.bind_some,
    readScaled?_numeral h hexponent hscale]

end

/-! ## The layouts of a magnitude -/

theorem scaleInRange_iff {scale : Int} :
    scaleInRange scale = true ↔ -(Nat.pow 2 63 : Int) ≤ scale ∧ scale < Nat.pow 2 63 := by
  simp [scaleInRange]

theorem lt_exponentLimit {n : Nat} (h : n ≤ Nat.pow 2 63) : n < exponentLimit :=
  h.trans_lt (by decide)

section

variable {negative : Bool} {ds : List Char} {scale : Int} (hne : ds ≠ [])
  (hdigits : Text.allDigits ds = true) (hscale : scaleInRange scale = true)

include hne hdigits hscale

theorem read?_small (hlength : ds.length ≤ scale) :
    read? (sign negative ++
        (Text.scientific ds ++ "E-".toList ++ Text.digits (scale - ds.length + 1).toNat)) =
      some ⟨signed negative (Text.ofDigits ds), scale⟩ := by
  have hhigh := (scaleInRange_iff.mp hscale).2
  have hpos := List.length_pos_iff.mpr hne
  generalize hn : (scale - ds.length + 1).toNat = n
  have hexponent : -(n : Int) = (ds.drop 1).length - scale := by
    rw [List.length_drop]
    omega
  have hlimit : n < exponentLimit := lt_exponentLimit (by omega)
  have hread := read?_numeral_exponent (Text.Numeral.scientific hne hdigits) negative
    (show Text.isMark 'E' = true from rfl) (readExponent?_minus hlimit.le) hexponent hscale
  rw [List.take_append_drop] at hread
  simpa using hread

theorem read?_inner (hpos : 0 < scale) (hlength : scale < ds.length) :
    read? (sign negative ++
        (ds.take (ds.length - scale).toNat ++ '.' :: ds.drop (ds.length - scale).toNat)) =
      some ⟨signed negative (Text.ofDigits ds), scale⟩ := by
  have hscale' : ((ds.drop (ds.length - scale).toNat).length : Int) = scale := by
    rw [List.length_drop]
    omega
  have hread := read?_numeral (Text.Numeral.inner (n := (ds.length - scale).toNat) (by omega) hne
    hdigits) negative (by rwa [hscale'])
  rwa [List.take_append_drop, hscale'] at hread

theorem read?_large (hneg : scale ≤ 0) :
    read? (sign negative ++ (ds ++ "e+".toList ++ Text.digits (-scale).toNat)) =
      some ⟨signed negative (Text.ofDigits ds), scale⟩ := by
  have hlow := (scaleInRange_iff.mp hscale).1
  generalize hn : (-scale).toNat = n
  have hexponent : (n : Int) = ([] : List Char).length - scale := by
    rw [List.length_nil]
    omega
  have hlimit : n < exponentLimit := lt_exponentLimit (by omega)
  have hread := read?_numeral_exponent (Text.Numeral.whole hne hdigits) negative
    (show Text.isMark 'e' = true from rfl) (readExponent?_plus hlimit) hexponent hscale
  rw [List.append_nil] at hread
  simpa using hread

end

theorem read?_below {negative : Bool} {ds : List Char} {scale : Int}
    (hdigits : Text.allDigits ds = true) (hscale : scaleInRange scale = true)
    (hlength : ds.length ≤ scale) :
    read? (sign negative ++
        ("0.".toList ++ List.replicate (scale - ds.length).toNat '0' ++ ds)) =
      some ⟨signed negative (Text.ofDigits ds), scale⟩ := by
  have hscale' :
      ((List.replicate (scale - ds.length).toNat '0' ++ ds).length : Int) = scale := by
    rw [List.length_append, List.length_replicate]
    omega
  have hread := read?_numeral (Text.Numeral.below (scale - ds.length).toNat hdigits) negative
    (by rwa [hscale'])
  rwa [Text.ofDigits_below, hscale'] at hread

theorem read?_above {negative : Bool} {ds : List Char} (n : Nat) (hne : ds ≠ [])
    (hdigits : Text.allDigits ds = true) :
    read? (sign negative ++ (ds ++ List.replicate n '0')) =
      some ⟨signed negative (Text.ofDigits ds) * Nat.pow 10 n, 0⟩ := by
  have hread := read?_numeral (Text.Numeral.above n hne hdigits) negative (by decide)
  rwa [List.append_nil, Text.ofDigits_above, signed_mul] at hread

theorem read?_magnitude {negative : Bool} {n : Nat} {scale : Int}
    (hscale : scaleInRange scale = true) :
    read? (sign negative ++ renderMagnitude (Text.digits n) scale) =
      some (if -trailingZeros ≤ scale ∧ scale ≤ 0 then
        ⟨signed negative n * Nat.pow 10 (-scale).toNat, 0⟩ else ⟨signed negative n, scale⟩) := by
  have hne := Text.digits_ne_nil n
  have hdigits := Text.allDigits_digits n
  have hn := Text.ofDigits_digits n
  unfold renderMagnitude
  generalize Text.digits n = ds at hne hdigits hn
  subst hn
  dsimp only
  by_cases hpos : 0 < scale
  · have hkept : ¬ (-(trailingZeros : Int) ≤ scale ∧ scale ≤ 0) := by omega
    rw [if_pos hpos, if_neg hkept]
    by_cases hsmall : (leadingZeros : Int) < scale - ds.length
    · rw [if_pos hsmall]
      exact read?_small hne hdigits hscale (by omega)
    · rw [if_neg hsmall]
      by_cases hinner : scale < ds.length
      · rw [if_pos hinner]
        exact read?_inner hne hdigits hscale hpos hinner
      · rw [if_neg hinner]
        exact read?_below hdigits hscale (by omega)
  · rw [if_neg hpos]
    by_cases hlarge : scale < -trailingZeros
    · have hkept : ¬ (-(trailingZeros : Int) ≤ scale ∧ scale ≤ 0) := by omega
      rw [if_pos hlarge, if_neg hkept]
      exact read?_large hne hdigits hscale (by omega)
    · have hwritten : -(trailingZeros : Int) ≤ scale ∧ scale ≤ 0 := by omega
      rw [if_neg hlarge, if_pos hwritten]
      exact read?_above _ hne hdigits

/-- A decimal is read back from its text, with as many digits after the point as that shows. -/
theorem read?_render {d : Decimal} (h : scaleInRange d.scale = true) :
    read? d.render = some d.shown := by
  unfold render shown
  split
  · exact read?_numeral (Text.Numeral.whole (by simp) rfl) false (by decide)
  · have hsign : (if d.digits < 0 then ['-'] else []) = sign (d.digits < 0) := by
      simp [sign]
    rw [hsign, read?_magnitude h, signed_natAbs]

end FilterQuery.Decimal
