import FilterQuery.Json.Token
import FilterQuery.Proofs.Value.Binary

namespace FilterQuery.Json.Number

/-- The number of a format that is nearest to a number as it is written. -/
def toBinary (f : BinaryFormat) (n : Number) : Binary :=
  ⟨n.negative, f.nearestDecimal (Text.ofDigits (n.whole ++ n.fraction))
    (n.exponent.getD 0 - n.fraction.length)⟩

/-- Whether digits have no zero before others. -/
def Leads (ds : List Char) : Prop := ds.head? ≠ some '0' ∨ ds = ['0']

/-- The text of a whole part and a fraction. Digits follow the point. -/
inductive Base : List Char → List Char → List Char → Prop
  | whole {ds : List Char} : ds ≠ [] → Text.allDigits ds = true → Leads ds → Base ds ds []
  | pointed {ws fs : List Char} : ws ≠ [] → fs ≠ [] → Text.allDigits (ws ++ fs) = true →
      Leads ws → Base (ws ++ '.' :: fs) ws fs

inductive Tail : List Char → Option Int → Prop
  | none : Tail [] none
  | marked {mark : Char} {after : List Char} {exponent : Int} : Text.isMark mark = true →
      Binary.readExponent? after = some exponent → Tail (mark :: after) (some exponent)

inductive Writes : List Char → Number → Prop
  | parts (negative : Bool) {base tail whole fraction : List Char} {exponent : Option Int} :
      Base base whole fraction → Tail tail exponent →
        Writes ((if negative then ['-'] else []) ++ (base ++ tail))
          ⟨negative, whole, fraction, exponent⟩

/-! ## Reading numbers -/

namespace Base

variable {cs ws fs : List Char}

theorem numeral (h : Base cs ws fs) : Text.Numeral cs ws fs := by
  cases h with
  | whole hne hdigits => exact .whole hne hdigits
  | pointed hne _ hdigits => exact .pointed hne hdigits

theorem leads (h : Base cs ws fs) : Leads ws := by
  cases h with
  | whole _ _ hleads => exact hleads
  | pointed _ _ _ hleads => exact hleads

end Base

theorem Tail.takeWhile_base {base tail : List Char} {exponent : Option Int}
    (h : Tail tail exponent) (hbase : ∀ c ∈ base, (!Text.isMark c) = true) :
    (base ++ tail).takeWhile (fun c => !Text.isMark c) = base := by
  cases h with
  | none => rw [List.append_nil, Text.takeWhile_unmarked hbase]
  | marked hmark => exact Text.takeWhile_marked hbase hmark

theorem Tail.dropWhile_base {base tail : List Char} {exponent : Option Int}
    (h : Tail tail exponent) (hbase : ∀ c ∈ base, (!Text.isMark c) = true) :
    (base ++ tail).dropWhile (fun c => !Text.isMark c) = tail := by
  cases h with
  | none => rw [List.append_nil, Text.dropWhile_unmarked hbase]
  | marked hmark => exact Text.dropWhile_marked hbase hmark

/-- What is read once the exponent is known. -/
def readBase? (negative : Bool) (base : List Char) (exponent : Option Int) : Option Number := do
  let (whole, fraction) ← match Text.splitAtFirst? '.' base with
    | none => some (base, [])
    | some (_, []) => none
    | some parts => some parts
  if Text.allDigits (whole ++ fraction) && whole ≠ [] &&
      (whole.head? ≠ some '0' || whole = ['0']) then
    return ⟨negative, whole, fraction, exponent⟩
  else none

def readUnsigned? (negative : Bool) (cs : List Char) : Option Number := do
  let base := cs.takeWhile fun c => !Text.isMark c
  let exponent ← match cs.dropWhile fun c => !Text.isMark c with
    | [] => some none
    | _ :: after => some <$> Binary.readExponent? after
  readBase? negative base exponent

theorem read?_minus (cs : List Char) : read? ('-' :: cs) = readUnsigned? true cs := rfl

theorem read?_unsigned {cs : List Char} (h : ∀ rest, cs ≠ '-' :: rest) :
    read? cs = readUnsigned? false cs := by
  unfold read?
  split
  next hparts =>
    split at hparts
    · exact absurd rfl (h _)
    · cases hparts
      rfl

theorem readBase?_eq {base whole fraction : List Char} (h : Base base whole fraction)
    (negative : Bool) (exponent : Option Int) :
    readBase? negative base exponent = some ⟨negative, whole, fraction, exponent⟩ := by
  have hplain : (Text.allDigits (whole ++ fraction) && decide (whole ≠ []) &&
      (decide (whole.head? ≠ some '0') || decide (whole = ['0']))) = true := by
    simpa [h.numeral.allDigits, h.numeral.ne_nil, Leads] using h.leads
  cases h with
  | whole _ hdigits =>
    rw [readBase?, Text.splitAtFirst?_eq_none (Text.not_mem_of_allDigits hdigits rfl)]
    exact if_pos hplain
  | pointed _ hne hdigits =>
    obtain ⟨c, fs, rfl⟩ := List.exists_cons_of_ne_nil hne
    have hwhole := (Text.allDigits_append.mp hdigits).1
    rw [readBase?, Text.splitAtFirst?_append _ (Text.not_mem_of_allDigits hwhole rfl)]
    exact if_pos hplain

theorem readUnsigned?_parts {base tail whole fraction : List Char} {exponent : Option Int}
    (hbase : Base base whole fraction) (htail : Tail tail exponent) (negative : Bool) :
    readUnsigned? negative (base ++ tail) = some ⟨negative, whole, fraction, exponent⟩ := by
  have hnumeral := hbase.numeral
  rw [readUnsigned?, htail.takeWhile_base hnumeral.not_isMark,
    htail.dropWhile_base hnumeral.not_isMark]
  cases htail with
  | none => exact readBase?_eq hbase negative none
  | marked _ hread =>
    dsimp only
    rw [hread]
    exact readBase?_eq hbase negative _

theorem isNumberChar_of_isDigit {c : Char} (h : c.isDigit = true) : isNumberChar c = true := by
  simp [isNumberChar, h]

theorem isNumberChar_of_readExponent? {cs : List Char} {exponent : Int}
    (h : Binary.readExponent? cs = some exponent) : ∀ c ∈ cs, isNumberChar c = true := by
  have hdigits {ds : List Char} (hds : (decide (ds ≠ []) && Text.allDigits ds) = true) :
      ∀ c ∈ ds, isNumberChar c = true := by
    intro c hc
    exact isNumberChar_of_isDigit (Text.isDigit_of_allDigits (Bool.and_eq_true_iff.mp hds).2 hc)
  unfold Binary.readExponent? at h
  split at h
  all_goals
    split at h
    next hds =>
      first
      | exact hdigits hds
      | exact List.forall_mem_cons.mpr ⟨by decide, hdigits hds⟩
    cases h

theorem Base.isNumberChar {cs ws fs : List Char} (h : Base cs ws fs) :
    ∀ c ∈ cs, isNumberChar c = true := by
  intro c hc
  rcases h.numeral.mem_cases hc with rfl | hdigit
  · decide
  · exact isNumberChar_of_isDigit hdigit

theorem Tail.isNumberChar {cs : List Char} {exponent : Option Int} (h : Tail cs exponent) :
    ∀ c ∈ cs, isNumberChar c = true := by
  cases h with
  | none => exact List.forall_mem_nil _
  | marked hmark hread =>
    refine List.forall_mem_cons.mpr ⟨?_, isNumberChar_of_readExponent? hread⟩
    rw [Text.isMark, Bool.or_eq_true] at hmark
    rcases hmark with hmark | hmark <;> simp [Json.isNumberChar, hmark]

namespace Writes

variable {cs : List Char} {n : Number} (h : Writes cs n)

include h

theorem read?_eq : read? cs = some n := by
  obtain ⟨negative, hbase, htail⟩ := h
  have hread := readUnsigned?_parts hbase htail negative
  cases negative with
  | true => exact (read?_minus _).trans hread
  | false =>
    refine (read?_unsigned ?_).trans hread
    intro rest hcons
    obtain ⟨c, _, rfl, hdigit⟩ := hbase.numeral.head
    exact Text.ne_of_isDigit hdigit rfl (List.cons.inj hcons).1

/-- The text of a number has the same value outside JSON. -/
theorem binary_read (f : BinaryFormat) : Binary.read f cs = .ok (n.toBinary f) := by
  obtain @⟨negative, base, tail, whole, fraction, exponent, hbase, htail⟩ := h
  apply Binary.Spells.read
  cases htail with
  | none =>
    have hread : Binary.readDecimal? (base ++ []) =
        some (Text.ofDigits (whole ++ fraction), 0 - (fraction.length : Int)) := by
      rw [List.append_nil, Binary.readDecimal?_numeral hbase.numeral, zero_sub]
    exact Binary.spells_numeral hbase.numeral hread
  | marked hmark hread =>
    exact Binary.spells_numeral hbase.numeral
      (Binary.readDecimal?_numeral_exponent hbase.numeral hmark hread)

theorem isNumberChar : ∀ c ∈ cs, isNumberChar c = true := by
  obtain ⟨negative, hbase, htail⟩ := h
  simp only [List.forall_mem_append]
  refine ⟨?_, hbase.isNumberChar, htail.isNumberChar⟩
  cases negative with
  | true => exact List.forall_mem_singleton.mpr rfl
  | false => exact List.forall_mem_nil _

theorem exists_cons : ∃ c rest, cs = c :: rest ∧ (c.isDigit || c == '-') = true := by
  obtain ⟨negative, hbase, htail⟩ := h
  obtain ⟨c, rest, rfl, hdigit⟩ := hbase.numeral.head
  cases negative with
  | true => exact ⟨'-', _, rfl, rfl⟩
  | false => exact ⟨c, _, rfl, by rw [hdigit, Bool.true_or]⟩

end Writes

/-! ## Writing numbers -/

theorem head?_digits {n : Nat} (h : n ≠ 0) : (Text.digits n).head? ≠ some '0' := by
  fun_induction Text.digits n with
  | case1 n hsmall =>
    have hall : ∀ n : Fin 10, n.val ≠ 0 → Text.digitChar n ≠ '0' := by decide
    simpa using hall ⟨n, hsmall⟩ h
  | case2 n hlarge ih =>
    have hne := Text.digits_ne_nil (n / 10)
    rw [List.head?_append_of_ne_nil _ hne]
    exact ih (by omega)

theorem leads_digits (n : Nat) : Leads (Text.digits n) := by
  by_cases h : n = 0
  · rw [h, Text.digits]
    exact .inr rfl
  · exact .inl (head?_digits h)

theorem writes_integer (n : Int) :
    Writes (Integer.render n) ⟨decide (n < 0), Text.digits n.natAbs, [], none⟩ := by
  have hbase := Base.whole (Text.digits_ne_nil n.natAbs) (Text.allDigits_digits n.natAbs)
    (leads_digits n.natAbs)
  have hwrites := Writes.parts (decide (n < 0)) hbase .none
  have hrender : Integer.render n =
      (if decide (n < 0) then ['-'] else []) ++ (Text.digits n.natAbs ++ []) := by
    simp only [Integer.render, decide_eq_true_eq, List.append_nil]
    split <;> rfl
  rwa [hrender]

theorem integer?_digits (n : Int) :
    integer? ⟨decide (n < 0), Text.digits n.natAbs, [], none⟩ = some n := by
  have hzero : (decide (n < 0) && decide (n.natAbs = 0)) = false := by
    rw [← Bool.decide_and, decide_eq_false_iff_not]
    omega
  simp only [integer?, Text.ofDigits_digits, hzero, ne_eq, not_true, decide_false,
    Option.isSome_none, Bool.or_self, Bool.false_eq_true, if_false, decide_eq_true_eq]
  congr 1
  split <;> omega

section

variable {ds : List Char} (hne : ds ≠ []) (hdigits : Text.allDigits ds = true)
  (hhead : ds.head? ≠ some '0')

include hne hdigits hhead

theorem exists_base_placePoint (places : Int) :
    ∃ ws fs, Base (Binary.placePoint ds places) ws fs := by
  have hzeros (n : Nat) := Text.allDigits_zeros n
  have hlength := List.length_pos_iff.mpr hne
  unfold Binary.placePoint
  split
  · have hall : Text.allDigits (['0'] ++ (List.replicate (-places).toNat '0' ++ ds)) = true := by
      simp only [Text.allDigits_append]
      exact ⟨rfl, hzeros _, hdigits⟩
    have hpointed := Base.pointed (List.cons_ne_nil _ _)
      (List.append_ne_nil_of_right_ne_nil _ hne) hall (.inr rfl)
    exact ⟨_, _, hpointed⟩
  split
  · next hpos hinner =>
    have htake : (ds.take places.toNat).head? = ds.head? := by
      rw [List.head?_take, if_neg (by omega)]
    refine ⟨_, _, .pointed ?_ ?_ (by rwa [List.take_append_drop]) (.inl (htake ▸ hhead))⟩
    · simp [hne]
      omega
    · simp
      omega
  · have hall : Text.allDigits
        ((ds ++ List.replicate (places.toNat - ds.length) '0') ++ ['0']) = true := by
      simp only [Text.allDigits_append]
      exact ⟨⟨hdigits, hzeros _⟩, rfl⟩
    have hleads : (ds ++ List.replicate (places.toNat - ds.length) '0').head? ≠ some '0' := by
      rwa [List.head?_append_of_ne_nil _ hne]
    have hpointed := Base.pointed (List.append_ne_nil_of_left_ne_nil hne _)
      (List.cons_ne_nil _ _) hall (.inl hleads)
    exact ⟨_, _, hpointed⟩

theorem exists_base_scientific : ∃ ws fs, Base (Text.scientific ds) ws fs := by
  match ds with
  | [] => exact absurd rfl hne
  | [_] => exact ⟨_, _, .whole hne hdigits (.inl hhead)⟩
  | d :: e :: es =>
    have hpointed : Base ([d] ++ '.' :: e :: es) [d] (e :: es) :=
      .pointed (List.cons_ne_nil _ _) (List.cons_ne_nil _ _) hdigits (.inl hhead)
    exact ⟨_, _, hpointed⟩

end

variable {f : BinaryFormat} {x : Binary} (layout : Binary.Layout)

theorem exists_parts_renderMagnitude (h : x.magnitude < f.infinity) :
    ∃ base tail whole fraction exponent, Base base whole fraction ∧ Tail tail exponent ∧
      Binary.renderMagnitude layout f x.magnitude = base ++ tail := by
  unfold Binary.renderMagnitude
  split
  · have hzero : Base (['0'] ++ '.' :: ['0']) ['0'] ['0'] :=
      .pointed (List.cons_ne_nil _ _) (List.cons_ne_nil _ _) rfl (.inr rfl)
    exact ⟨_, _, _, _, _, hzero, .none, rfl⟩
  · next hne =>
    have hpos := Nat.pos_of_ne_zero hne
    have hshortest : f.nearestDecimal (f.shortest layout.tie x.magnitude).1
        (f.shortest layout.tie x.magnitude).2 = x.magnitude :=
      BinaryFormat.nearestDecimal_shortest hpos h.le
    generalize f.shortest layout.tie x.magnitude = shortest at hshortest
    obtain ⟨number, exponent⟩ := shortest
    dsimp only at hshortest ⊢
    have hnumber := BinaryFormat.pos_of_nearestDecimal (hshortest ▸ hpos)
    have hdigits := Text.allDigits_digits number
    have hhead := head?_digits hnumber
    split
    · obtain ⟨ws, fs, hbase⟩ :=
        exists_base_placePoint (Text.digits_ne_nil number) hdigits hhead _
      exact ⟨_, _, _, _, _, hbase, .none, (List.append_nil _).symm⟩
    · obtain ⟨ws, fs, hbase⟩ := exists_base_scientific (Text.digits_ne_nil number) hdigits hhead
      have hlength := List.length_pos_iff.mpr (Text.digits_ne_nil number)
      have hsign : (layout.plus && decide (0 < (Text.digits number).length + exponent)) = true →
          0 ≤ (Text.digits number).length + exponent - 1 := by
        intro h
        have hpositive := of_decide_eq_true (Bool.and_eq_true_iff.mp h).2
        omega
      have hmark : Text.isMark 'e' = true := rfl
      have htail := Tail.marked hmark (Binary.readExponent?_render hsign)
      exact ⟨_, _, _, _, _, hbase, htail, Binary.withExponent_eq _ _ _⟩

/-- A finite number is written so that it is the nearest to its text. -/
theorem exists_writes_render (h : x.magnitude < f.infinity) :
    ∃ n, Writes (x.render layout f) n ∧ n.toBinary f = x := by
  have hnan : x.isNaN f = false := decide_eq_false (Nat.not_lt.mpr h.le)
  obtain ⟨base, tail, whole, fraction, exponent, hbase, htail, hmagnitude⟩ :=
    exists_parts_renderMagnitude layout h
  have hrender : x.render layout f = (if x.negative then ['-'] else []) ++ (base ++ tail) := by
    rw [Binary.render, hnan, if_neg Bool.false_ne_true, if_neg h.ne, hmagnitude]
  have hwrites := Writes.parts x.negative hbase htail
  rw [← hrender] at hwrites
  have hread := hwrites.binary_read f
  rw [Binary.read_render layout hnan, Except.ok.injEq] at hread
  exact ⟨_, hwrites, hread.symm⟩

end FilterQuery.Json.Number
