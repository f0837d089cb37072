import FilterQuery.Proofs.Value.Numeral
import FilterQuery.Proofs.Value.Order
import FilterQuery.Value.Binary.Text

namespace FilterQuery

theorem greatest_eq {test : Nat → Bool} {bits low m : Nat} (htest : ∀ n, test n = true ↔ n ≤ m)
    (hlow : low ≤ m) (hhigh : m < low + Nat.pow 2 bits) : greatest test bits low = m := by
  induction bits generalizing low with
  | zero =>
    have hpow : Nat.pow 2 0 = 1 := rfl
    rw [greatest]
    omega
  | succ bits ih =>
    have hpow : Nat.pow 2 (bits + 1) = Nat.pow 2 bits * 2 := rfl
    rw [greatest]
    split
    · next hpass => exact ih ((htest _).mp hpass) (by omega)
    · next hfail =>
      have hbelow := mt (htest _).mpr hfail
      exact ih hlow (by omega)

namespace BinaryFormat

variable {f : BinaryFormat} {num den m : Nat}

/-! ## Rounding -/

theorem nearest_exact (hden : 0 < den) (hm : m ≤ f.infinity)
    (h : num * Nat.pow 2 f.scale = f.units m * den) : f.nearest num den = m := by
  have hroom : f.infinity < Nat.pow 2 f.magnitudeBits := by cases f <;> decide
  have htest (n : Nat) :
      (n ≤ f.infinity && f.units n * den ≤ num * Nat.pow 2 f.scale : Bool) = true ↔ n ≤ m := by
    rw [h, Bool.and_eq_true, decide_eq_true_eq, decide_eq_true_eq,
      Nat.mul_le_mul_right_iff hden, units_strictMono.le_iff_le]
    omega
  have hbelow : greatest (fun n => n ≤ f.infinity && f.units n * den ≤ num * Nat.pow 2 f.scale)
      f.magnitudeBits 0 = m :=
    greatest_eq htest (Nat.zero_le m) (by omega)
  have hnext : f.units m * den < f.units (m + 1) * den :=
    Nat.mul_lt_mul_of_pos_right (units_strictMono (Nat.lt_succ_self m)) hden
  have hcompare : Ord.compare (2 * (num * Nat.pow 2 f.scale))
      ((f.units m + f.units (m + 1)) * den) = .lt := by
    rw [h, compare_lt_iff_lt, Nat.add_mul]
    omega
  unfold nearest
  dsimp only
  rw [hbelow, hcompare]
  split <;> rfl

theorem nearest_mul (num den : Nat) {c : Nat} (hc : 0 < c) :
    f.nearest (num * c) (den * c) = f.nearest num den := by
  have htarget : num * c * Nat.pow 2 f.scale = num * Nat.pow 2 f.scale * c :=
    Nat.mul_right_comm _ _ _
  have htest (n : Nat) : (f.units n * (den * c) ≤ num * Nat.pow 2 f.scale * c) =
      (f.units n * den ≤ num * Nat.pow 2 f.scale) := by
    rw [← Nat.mul_assoc, Nat.mul_le_mul_right_iff hc]
  have hcompare (n : Nat) : Ord.compare (2 * (num * Nat.pow 2 f.scale * c)) (n * (den * c)) =
      Ord.compare (2 * (num * Nat.pow 2 f.scale)) (n * den) := by
    rw [← Nat.mul_assoc 2, ← Nat.mul_assoc n]
    exact compare_eq_compare (Nat.mul_lt_mul_right hc) (Nat.mul_lt_mul_right hc)
  simp only [nearest, htarget, htest, hcompare]

theorem pos_of_nearestDecimal {digits : Nat} {exponent : Int}
    (h : 0 < f.nearestDecimal digits exponent) : digits ≠ 0 := by
  rintro rfl
  simp [nearestDecimal] at h

theorem le_of_nearestDecimal_lt {digits : Nat} {exponent : Int} (hdigits : digits ≠ 0)
    (h : f.nearestDecimal digits exponent < f.infinity) : exponent ≤ decimalRange := by
  by_contra hlarge
  rw [nearestDecimal, if_neg hdigits, if_pos (Int.not_le.mp hlarge)] at h
  exact absurd h (Nat.lt_irrefl _)

/-- A whole number may be written with zeros in place of a power of ten, and a zero after its
point. -/
theorem nearestDecimal_shift {digits k : Nat} (hdigits : digits ≠ 0) (hk : k ≤ decimalRange) :
    f.nearestDecimal (digits * Nat.pow 10 (k + 1)) (-1) = f.nearestDecimal digits k := by
  have hpos : 0 < Nat.pow 10 (k + 1) := Nat.pow_pos (by decide)
  have hne : digits * Nat.pow 10 (k + 1) ≠ 0 := Nat.mul_ne_zero hdigits hpos.ne'
  have hrange : decimalRange = 400 := rfl
  rw [nearestDecimal, if_neg hne, if_neg (by omega), if_neg (by omega), if_neg (by omega),
    nearestDecimal, if_neg hdigits, if_neg (by omega), if_neg (by omega), if_pos (by omega)]
  calc f.nearest (digits * Nat.pow 10 (k + 1)) 10
      = f.nearest (digits * Nat.pow 10 k * 10) (1 * 10) := by rw [Nat.mul_assoc]; rfl
    _ = f.nearest (digits * Nat.pow 10 k) 1 := nearest_mul _ _ (by decide)

/-! ## Digits that read back -/

variable {tie : Tie}

/-- The finest grid holds every value of the format. -/
theorem nearestDecimal_exact (hpos : 0 < m) (hm : m ≤ f.infinity) :
    f.nearestDecimal (f.units m * Nat.pow 5 f.scale) (-f.scale) = m := by
  have hzero : f.units 0 = 0 := by cases f <;> decide
  have hunits : 0 < f.units m := hzero ▸ units_strictMono hpos
  have hfive : 0 < Nat.pow 5 f.scale := Nat.pow_pos (by decide)
  have hscale : 0 < f.scale ∧ f.scale ≤ 1074 := by cases f <;> decide
  have hrange : decimalRange = 400 := rfl
  have hwidth : Nat.pow 10 (f.scale - 401) < Nat.pow 5 f.scale := by
    cases f <;> decide +kernel
  -- The finest grid may lie below the decimal range, but its numbers have digits enough.
  have hlength : f.scale ≤ (Text.digits (f.units m * Nat.pow 5 f.scale)).length + 400 := by
    by_contra hshort
    have hdigits := Text.lt_pow_length_digits (f.units m * Nat.pow 5 f.scale)
    have hshort : (Text.digits (f.units m * Nat.pow 5 f.scale)).length ≤ f.scale - 401 := by
      omega
    have hbound := Nat.pow_le_pow_right (n := 10) (by decide) hshort
    have hunit : Nat.pow 5 f.scale ≤ f.units m * Nat.pow 5 f.scale :=
      Nat.le_mul_of_pos_left _ hunits
    exact absurd (hwidth.trans_le (hunit.trans hdigits.le)) (Nat.not_lt.mpr hbound)
  have hpow : 0 < Nat.pow 10 f.scale := Nat.pow_pos (by decide)
  have hten : Nat.pow 10 f.scale = Nat.pow 5 f.scale * Nat.pow 2 f.scale :=
    Nat.mul_pow 5 2 f.scale
  rw [nearestDecimal, if_neg (Nat.mul_ne_zero hunits.ne' hfive.ne'), if_neg (by omega),
    if_neg (by omega), if_neg (by omega), neg_neg, Int.toNat_natCast]
  apply nearest_exact hpow hm
  rw [hten, Nat.mul_assoc]

theorem nearestDecimal_of_gridNeighbour? {digits : Nat} {exponent : Int}
    (h : f.gridNeighbour? tie m exponent = some digits) :
    f.nearestDecimal digits exponent = m := by
  unfold gridNeighbour? at h
  dsimp only at h
  split at h
  · cases h
  · next hlow _ =>
    cases h
    exact beq_iff_eq.mp hlow
  · next _ hhigh =>
    cases h
    exact beq_iff_eq.mp hhigh
  · next hlow hhigh =>
    split at h
    · cases h
      exact beq_iff_eq.mp hlow
    · cases h
      exact beq_iff_eq.mp hhigh
    · cases h
      exact beq_iff_eq.mp hhigh
    · cases h
      split
      · exact beq_iff_eq.mp hlow
      · exact beq_iff_eq.mp hhigh

/-- Every grid is left with digits that read back, and the last one holds the value itself. -/
theorem nearestDecimal_refine (hpos : 0 < m) (hm : m ≤ f.infinity) (n : Nat) :
    f.nearestDecimal (f.refine tie m n).1 (f.refine tie m n).2 = m := by
  induction n with
  | zero => exact nearestDecimal_exact hpos hm
  | succ n ih =>
    rw [refine]
    split
    · next hfound => exact nearestDecimal_of_gridNeighbour? hfound
    · exact ih

theorem nearestDecimal_shortest (hpos : 0 < m) (hm : m ≤ f.infinity) :
    f.nearestDecimal (f.shortest tie m).1 (f.shortest tie m).2 = m :=
  nearestDecimal_refine hpos hm _

end BinaryFormat

namespace Binary

variable {f : BinaryFormat}

/-! ## Numerals -/

section

variable {cs ws fs : List Char} (h : Text.Numeral cs ws fs)

include h

theorem parts_numeral : (Text.splitAtFirst? '.' cs).getD (cs, []) = (ws, fs) :=
  h.parts List.not_mem_nil

theorem readDecimal?_numeral :
    readDecimal? cs = some (Text.ofDigits (ws ++ fs), -(fs.length : Int)) := by
  have htake := Text.takeWhile_unmarked h.not_isMark
  have hdrop := Text.dropWhile_unmarked h.not_isMark
  unfold Text.isMark at htake hdrop
  simp only [readDecimal?, htake, hdrop, parts_numeral h, Option.bind_eq_bind, Option.bind_some]
  rw [if_pos (by simp [h.ne_nil, h.allDigits]), zero_sub]

theorem readDecimal?_numeral_exponent {after : List Char} {mark : Char} {exponent : Int}
    (hmark : Text.isMark mark = true) (hread : readExponent? after = some exponent) :
    readDecimal? (cs ++ mark :: after) =
      some (Text.ofDigits (ws ++ fs), exponent - fs.length) := by
  have htake := @Text.takeWhile_marked cs after mark h.not_isMark hmark
  have hdrop := @Text.dropWhile_marked cs after mark h.not_isMark hmark
  unfold Text.isMark at htake hdrop
  simp only [readDecimal?, htake, hdrop, hread, parts_numeral h, Option.bind_eq_bind,
    Option.bind_some]
  rw [if_pos (by simp [h.ne_nil, h.allDigits])]

theorem readMagnitude?_numeral (after : List Char) :
    readMagnitude? f (cs ++ after) =
      (readDecimal? (cs ++ after)).map fun (digits, exponent) =>
        f.nearestDecimal digits exponent := by
  obtain ⟨c, rest, rfl, hdigit⟩ := h.head
  have hletter {d : Char} {ds : List Char} (hd : d.isDigit = false) :
      (c :: rest ++ after).map Char.toLower ≠ d :: ds := by
    intro hmap
    have hhead : c.toLower = d := (List.cons.inj hmap).1
    rw [Text.toLower_of_isDigit hdigit] at hhead
    exact Text.ne_of_isDigit hdigit hd hhead
  have hinf : (c :: rest ++ after).map Char.toLower ≠ "inf".toList := hletter rfl
  have hinfinity : (c :: rest ++ after).map Char.toLower ≠ "infinity".toList := hletter rfl
  have hnan : (c :: rest ++ after).map Char.toLower ≠ "nan".toList := hletter rfl
  unfold readMagnitude?
  dsimp only
  rw [if_neg (by simp only [hinf, hinfinity]; decide), if_neg hnan]

end

section

variable {ds : List Char} (hne : ds ≠ []) (hdigits : Text.allDigits ds = true)

include hne hdigits

theorem readExponent?_minus : readExponent? ('-' :: ds) = some (-(Text.ofDigits ds : Int)) := by
  simp [readExponent?, hne, hdigits]

theorem readExponent?_plus : readExponent? ('+' :: ds) = some (Text.ofDigits ds : Int) := by
  simp [readExponent?, hne, hdigits]

theorem readExponent?_digits : readExponent? ds = some (Text.ofDigits ds : Int) := by
  obtain ⟨c, rest, rfl⟩ := List.exists_cons_of_ne_nil hne
  have hdigit := Text.isDigit_of_allDigits hdigits List.mem_cons_self
  have hminus : c ≠ '-' := Text.ne_of_isDigit hdigit rfl
  have hplus : c ≠ '+' := Text.ne_of_isDigit hdigit rfl
  simp [readExponent?, hminus, hplus, hdigits]

end

theorem readExponent?_render {n : Int} {plus : Bool} (hplus : plus = true → 0 ≤ n) :
    readExponent? ((if plus then ['+'] else []) ++ Integer.render n) = some n := by
  have hne := Text.digits_ne_nil n.natAbs
  have hdigits := Text.allDigits_digits n.natAbs
  have hvalue := Text.ofDigits_digits n.natAbs
  unfold Integer.render
  cases plus with
  | true =>
    rw [if_pos rfl, if_neg (Int.not_lt.mpr (hplus rfl)), List.singleton_append,
      readExponent?_plus hne hdigits, hvalue, Int.natAbs_of_nonneg (hplus rfl)]
  | false =>
    rw [if_neg Bool.false_ne_true, List.nil_append]
    split
    · next hneg =>
      rw [readExponent?_minus hne hdigits, hvalue, Int.ofNat_natAbs_of_nonpos hneg.le, neg_neg]
    · next hpos =>
      rw [readExponent?_digits hne hdigits, hvalue, Int.natAbs_of_nonneg (Int.not_lt.mp hpos)]

/-! ## Layouts -/

section

variable {ds : List Char} {places : Int} (hne : ds ≠ []) (hdigits : Text.allDigits ds = true)

include hne hdigits

theorem numeral_placePoint (hplaces : places < ds.length) :
    ∃ ws fs, Text.Numeral (placePoint ds places) ws fs ∧
      Text.ofDigits (ws ++ fs) = Text.ofDigits ds ∧ -(fs.length : Int) = places - ds.length := by
  unfold placePoint
  by_cases hbelow : places ≤ 0
  · rw [if_pos hbelow]
    refine ⟨_, _, .below (-places).toNat hdigits, Text.ofDigits_below _ _, ?_⟩
    rw [List.length_append, List.length_replicate]
    omega
  · rw [if_neg hbelow, if_pos hplaces]
    refine ⟨_, _, .inner (by omega) hne hdigits, by rw [List.take_append_drop], ?_⟩
    rw [List.length_drop]
    omega

theorem numeral_placePoint_whole {k : Nat} (hplaces : places = ds.length + k) :
    ∃ ws fs, Text.Numeral (placePoint ds places) ws fs ∧
      Text.ofDigits (ws ++ fs) = Text.ofDigits ds * Nat.pow 10 (k + 1) ∧ fs.length = 1 := by
  have hpos := List.length_pos_iff.mpr hne
  have hzeros : places.toNat - ds.length = k := by omega
  have hall : Text.allDigits ((ds ++ List.replicate k '0') ++ ['0']) = true := by
    simp only [Text.allDigits_append]
    exact ⟨⟨hdigits, Text.allDigits_zeros k⟩, rfl⟩
  have hnumeral := Text.Numeral.pointed (by simp [hne]) hall
  have hlayout : placePoint ds places = (ds ++ List.replicate k '0') ++ '.' :: ['0'] := by
    rw [placePoint, if_neg (by omega), if_neg (by omega), hzeros]
    rfl
  have hvalue : Text.ofDigits ((ds ++ List.replicate k '0') ++ ['0']) =
      Text.ofDigits ds * Nat.pow 10 (k + 1) := by
    rw [List.append_assoc, ← List.replicate_succ', Text.ofDigits_above]
  exact ⟨_, _, hlayout ▸ hnumeral, hvalue, rfl⟩

end

theorem withExponent_eq (plus : Bool) (ds : List Char) (places : Int) :
    withExponent plus ds places = Text.scientific ds ++
      'e' :: ((if plus && 0 < places then ['+'] else []) ++ Integer.render (places - 1)) := by
  match ds with
  | [] => rfl
  | [_] => rfl
  | _ :: _ :: _ => simp [withExponent, Text.scientific]

/-! ## Texts of magnitudes -/

/-- A text that begins with no sign, so that one can stand before it, and is read as a
magnitude. -/
def Spells (f : BinaryFormat) (cs : List Char) (m : Nat) : Prop :=
  (∃ c rest, cs = c :: rest ∧ c ≠ '-' ∧ c ≠ '+') ∧ readMagnitude? f cs = some m

theorem spells_numeral {cs ws fs after : List Char} {digits : Nat} {exponent : Int}
    (h : Text.Numeral cs ws fs) (hread : readDecimal? (cs ++ after) = some (digits, exponent)) :
    Spells f (cs ++ after) (f.nearestDecimal digits exponent) := by
  obtain ⟨c, rest, hcons, hdigit⟩ := h.head
  refine ⟨⟨c, rest ++ after, by rw [hcons, List.cons_append],
    Text.ne_of_isDigit hdigit rfl, Text.ne_of_isDigit hdigit rfl⟩, ?_⟩
  rw [readMagnitude?_numeral h, hread, Option.map_some]

theorem spells_infinity : Spells f "inf".toList f.infinity :=
  ⟨⟨'i', ['n', 'f'], rfl, by decide, by decide⟩, rfl⟩

theorem spells_zero : Spells f "0.0".toList 0 := by
  have hnumeral : Text.Numeral ['0', '.', '0'] ['0'] ['0'] :=
    @Text.Numeral.pointed ['0'] ['0'] (List.cons_ne_nil _ _) rfl
  have hread : readDecimal? (['0', '.', '0'] ++ []) = some (0, -1) := readDecimal?_numeral hnumeral
  exact spells_numeral hnumeral hread

section

variable {number : Nat} {exponent : Int}

theorem spells_placePoint (hne : number ≠ 0) (hrange : exponent ≤ BinaryFormat.decimalRange) :
    Spells f (placePoint (Text.digits number) ((Text.digits number).length + exponent))
      (f.nearestDecimal number exponent) := by
  have hdigits := Text.allDigits_digits number
  rcases Int.lt_or_le exponent 0 with hneg | hpos
  · have hplaces : (Text.digits number).length + exponent < (Text.digits number).length := by
      omega
    obtain ⟨ws, fs, hnumeral, hvalue, hlength⟩ :=
      numeral_placePoint (Text.digits_ne_nil number) hdigits hplaces
    have hread := readDecimal?_numeral hnumeral
    rw [hvalue, hlength, Text.ofDigits_digits, add_sub_cancel_left] at hread
    rw [← List.append_nil (placePoint _ _)] at hread ⊢
    exact spells_numeral hnumeral hread
  · obtain ⟨k, rfl⟩ := Int.eq_ofNat_of_zero_le hpos
    obtain ⟨ws, fs, hnumeral, hvalue, hlength⟩ :=
      numeral_placePoint_whole (Text.digits_ne_nil number) hdigits rfl
    have hread := readDecimal?_numeral hnumeral
    rw [hvalue, hlength, Text.ofDigits_digits] at hread
    rw [← BinaryFormat.nearestDecimal_shift hne hrange]
    rw [← List.append_nil (placePoint _ _)] at hread ⊢
    exact spells_numeral hnumeral hread

theorem spells_withExponent (plus : Bool) (number : Nat) (exponent : Int) :
    Spells f (withExponent plus (Text.digits number) ((Text.digits number).length + exponent))
      (f.nearestDecimal number exponent) := by
  have hne := Text.digits_ne_nil number
  have hlength := List.length_pos_iff.mpr hne
  have hnumeral := Text.Numeral.scientific hne (Text.allDigits_digits number)
  have hsign : (plus && decide (0 < (Text.digits number).length + exponent)) = true →
      0 ≤ (Text.digits number).length + exponent - 1 := by
    intro h
    have hpositive := of_decide_eq_true (Bool.and_eq_true_iff.mp h).2
    omega
  have hmark : Text.isMark 'e' = true := rfl
  have hread := readDecimal?_numeral_exponent hnumeral hmark (readExponent?_render hsign)
  have hexponent : (Text.digits number).length + exponent - 1 -
      ((Text.digits number).drop 1).length = exponent := by
    rw [List.length_drop]
    omega
  rw [List.take_append_drop, Text.ofDigits_digits, hexponent] at hread
  rw [withExponent_eq]
  exact spells_numeral hnumeral hread

end

variable {layout : Layout} {m : Nat} {x : Binary}

theorem spells_renderMagnitude (hm : m < f.infinity) :
    Spells f (renderMagnitude layout f m) m := by
  unfold renderMagnitude
  split
  · next hzero =>
    subst hzero
    exact spells_zero
  · next hne =>
    have hpos := Nat.pos_of_ne_zero hne
    have hshortest : f.nearestDecimal (f.shortest layout.tie m).1 (f.shortest layout.tie m).2 = m :=
      BinaryFormat.nearestDecimal_shortest hpos hm.le
    generalize f.shortest layout.tie m = shortest at hshortest
    obtain ⟨number, exponent⟩ := shortest
    dsimp only at hshortest ⊢
    subst hshortest
    split
    · have hnumber := BinaryFormat.pos_of_nearestDecimal hpos
      exact spells_placePoint hnumber (BinaryFormat.le_of_nearestDecimal_lt hnumber hm)
    · exact spells_withExponent layout.plus number exponent

/-! ## Texts of floating-point numbers -/

theorem Spells.read {cs : List Char} (h : Spells f cs m) (negative : Bool) :
    read f ((if negative then ['-'] else []) ++ cs) = .ok ⟨negative, m⟩ := by
  obtain ⟨⟨c, rest, rfl, hminus, hplus⟩, hread⟩ := h
  cases negative <;> simp [Binary.read, hminus, hplus, hread]

/-- A number is read back from its text in every layout. -/
theorem read_render (layout : Layout) (hx : x.isNaN f = false) :
    read f (x.render layout f) = .ok x := by
  have hle : x.magnitude ≤ f.infinity := Nat.not_lt.mp (of_decide_eq_false hx)
  have hspells : Spells f (if x.magnitude = f.infinity then "inf".toList
      else renderMagnitude layout f x.magnitude) x.magnitude := by
    split
    · next hinfinity => exact hinfinity ▸ spells_infinity
    · next hfinite => exact spells_renderMagnitude (Nat.lt_of_le_of_ne hle hfinite)
  rw [render, hx, if_neg Bool.false_ne_true]
  exact hspells.read x.negative

theorem read_render_of_isNaN (layout : Layout) (hx : x.isNaN f = true) :
    read f (x.render layout f) = .ok ⟨false, f.infinity + 1⟩ := by
  rw [render, hx, if_pos rfl]
  rfl

end Binary

end FilterQuery
