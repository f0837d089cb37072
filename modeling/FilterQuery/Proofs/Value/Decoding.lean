import FilterQuery.Proofs.Value.Integer
import FilterQuery.Proofs.Value.Uuid
import FilterQuery.Record.Field
import FilterQuery.Value.Codec
import Mathlib.Data.List.Induction

namespace FilterQuery

theorem Text.digitValue_lt {c : Char} (h : c.isDigit = true) : Text.digitValue c < 10 := by
  have hrange := Bool.and_eq_true_iff.mp h
  have hhigh : c.toNat ≤ 57 := UInt32.le_iff_toNat_le.mp (of_decide_eq_true hrange.2)
  have hzero : '0'.toNat = 48 := rfl
  simp only [Text.digitValue]
  omega

theorem Text.ofDigits_lt {cs : List Char} (h : Text.allDigits cs = true) :
    Text.ofDigits cs < Nat.pow 10 cs.length := by
  induction cs using List.reverseRecOn with
  | nil => decide
  | append_singleton cs c ih =>
    have hall : ∀ d ∈ cs ++ [c], d.isDigit = true := List.all_eq_true.mp h
    have hinit := ih (List.all_eq_true.mpr fun d hd => hall d (List.mem_append_left [c] hd))
    have hlast := Text.digitValue_lt (hall c (by simp))
    have hpow : Nat.pow 10 (cs ++ [c]).length = Nat.pow 10 cs.length * 10 := by
      rw [List.length_append]
      rfl
    rw [Text.ofDigits_concat, hpow]
    omega

theorem Integer.holds_of_read {t : IntegerType} {cs : List Char} {n : Int}
    (h : Integer.read t cs = .ok n) : t.Holds n := by
  have hpositive {cs : List Char}
      (h : (Integer.readDigits t.height .integerTooLarge 0 cs).map Int.ofNat = .ok n) :
      t.Holds n := by
    obtain ⟨m, hm, rfl⟩ := map_eq_ok_iff.mp h
    have hle := ((Integer.readDigits_eq_ok_iff (Nat.zero_le _)).mp hm).2.2
    exact ⟨by simp only [Int.ofNat_eq_natCast]; omega, by simp only [Int.ofNat_eq_natCast]; omega⟩
  unfold Integer.read at h
  split at h
  · cases h
  · cases h
  · cases h
  · exact hpositive h
  · split at h
    · obtain ⟨m, hm, rfl⟩ := map_eq_ok_iff.mp h
      have hle := ((Integer.readDigits_eq_ok_iff (Nat.zero_le _)).mp hm).2.2
      exact ⟨by simp only [Int.ofNat_eq_natCast]; omega, by simp only [Int.ofNat_eq_natCast]; omega⟩
    · cases h
  · exact hpositive h

/-! ## Floats -/

theorem greatest_passes {test : Nat → Bool} {bits low : Nat} (h : test low = true) :
    test (greatest test bits low) = true := by
  induction bits generalizing low with
  | zero => exact h
  | succ bits ih =>
    simp only [greatest]
    split
    · next hhigh => exact ih hhigh
    · exact ih h

namespace BinaryFormat

variable {f : BinaryFormat}

theorem nearest_le_infinity (num den : Nat) : f.nearest num den ≤ f.infinity := by
  let test (m : Nat) : Bool := m ≤ f.infinity && f.units m * den ≤ num * Nat.pow 2 f.scale
  have hunits : f.units 0 = 0 := by cases f <;> decide
  have hbelow : test (greatest test f.magnitudeBits 0) = true :=
    greatest_passes (by simp [test, hunits])
  have hle : greatest test f.magnitudeBits 0 ≤ f.infinity := by
    simp only [test, Bool.and_eq_true, decide_eq_true_eq] at hbelow
    exact hbelow.1
  unfold nearest
  dsimp only
  split
  · exact hle
  · next hne =>
    have hlt : greatest test f.magnitudeBits 0 < f.infinity := Nat.lt_of_le_of_ne hle hne
    split
    · exact hle
    · exact hlt
    · split
      · exact hle
      · exact hlt

theorem nearestDecimal_le_infinity (digits : Nat) (exponent : Int) :
    f.nearestDecimal digits exponent ≤ f.infinity := by
  unfold nearestDecimal
  split
  · exact Nat.zero_le _
  split
  · exact Nat.le_refl _
  split
  · exact Nat.zero_le _
  split <;> exact nearest_le_infinity _ _

end BinaryFormat

theorem Binary.magnitude_of_read {f : BinaryFormat} {cs : List Char} {x : Binary}
    (h : Binary.read f cs = .ok x) : x.magnitude < Nat.pow 2 f.magnitudeBits := by
  have hroom : f.infinity + 1 < Nat.pow 2 f.magnitudeBits := by cases f <;> decide
  have hmagnitude {rest : List Char} {m : Nat} (hm : readMagnitude? f rest = some m) :
      m ≤ f.infinity + 1 := by
    simp only [readMagnitude?] at hm
    split at hm
    · cases hm
      omega
    split at hm
    · cases hm
      omega
    · obtain ⟨⟨digits, exponent⟩, _, rfl⟩ := Option.map_eq_some_iff.mp hm
      exact Nat.le_succ_of_le (BinaryFormat.nearestDecimal_le_infinity digits exponent)
  simp only [read] at h
  split at h
  · cases h
  split at h
  · next m hm =>
    cases h
    have := hmagnitude hm
    simp only
    omega
  · cases h

/-! ## Moments -/

namespace DateTime

theorem nanosOf_lt {ds : List Char} (h : Text.allDigits ds = true) : nanosOf ds < leap := by
  have hall : Text.allDigits (ds.take 9) = true := by
    refine List.all_eq_true.mpr fun d hd => Text.isDigit_of_allDigits h (List.mem_of_mem_take hd)
  have hlt := Text.ofDigits_lt hall
  have hpow : Nat.pow 10 (ds.take 9).length * Nat.pow 10 (9 - ds.length) = leap := by
    have hadd : (ds.take 9).length + (9 - ds.length) = 9 := by simp; omega
    calc Nat.pow 10 (ds.take 9).length * Nat.pow 10 (9 - ds.length)
        = Nat.pow 10 ((ds.take 9).length + (9 - ds.length)) := (Nat.pow_add 10 _ _).symm
      _ = leap := by rw [hadd]; rfl
  calc nanosOf ds
      < Nat.pow 10 (ds.take 9).length * Nat.pow 10 (9 - ds.length) :=
        Nat.mul_lt_mul_of_pos_right hlt (Nat.pow_pos (by decide))
    _ = leap := hpow

theorem readFraction?_lt {cs rest : List Char} {n : Nat}
    (h : readFraction? cs = some (n, rest)) : n < leap := by
  unfold readFraction? at h
  split at h
  · dsimp only at h
    split at h
    · cases h
    · cases h
      exact nanosOf_lt List.all_takeWhile
  · cases h
    decide

theorem offsetOf?_lt {negative : Bool} {hours minutes : Nat} {offset : Int}
    (h : offsetOf? negative hours minutes = some offset) : offset.natAbs < 86400 := by
  unfold offsetOf? at h
  split at h
  · next hbounds =>
    simp only [Bool.and_eq_true, decide_eq_true_eq] at hbounds
    dsimp only at h
    split at h
    · cases h
      omega
    · cases h
      omega
  · cases h

theorem readOffset?_lt {cs rest : List Char} {offset : Int}
    (h : readOffset? cs = some (offset, rest)) : offset.natAbs < 86400 := by
  unfold readOffset? at h
  split at h
  · cases h
    decide
  · cases h
    decide
  · simp only [Option.bind_eq_bind, Option.bind_eq_some_iff, Prod.exists] at h
    obtain ⟨_, _, _, _, _, _, _, _, _, _, _, offset', hoffset, hpure⟩ := h
    cases hpure
    exact offsetOf?_lt hoffset

theorem holds_of_assemble? {d : Date} {c : Clock} {nanos : Nat} {offset : Int} {t : DateTime}
    (hnanos : nanos < leap) (hoffset : offset.natAbs < 86400)
    (h : assemble? d c nanos offset = some t) : Kind.dateTime.Holds (.dateTime t) := by
  unfold assemble? at h
  split at h
  · cases h
    refine ⟨?_, hoffset⟩
    simp only [ofClock]
    split <;> omega
  · cases h

theorem holds_of_read? {cs : List Char} {t : DateTime} (h : read? cs = some t) :
    Kind.dateTime.Holds (.dateTime t) := by
  simp only [read?, Option.bind_eq_bind, Option.bind_eq_some_iff, Prod.exists] at h
  obtain ⟨year, _, _, _, _, month, _, _, _, _, day, _, _, _, _, hour, _, _, _, _, minute, _, _,
    _, _, second, _, _, nanos, _, hnanos, offset, _, hoffset, h⟩ := h
  split at h
  · exact holds_of_assemble? (readFraction?_lt hnanos) (readOffset?_lt hoffset) h
  · cases h

end DateTime

theorem Duration.le_limit_of_read {cs : List Char} {d : Duration} (h : Duration.read cs = .ok d) :
    d.nanos.natAbs ≤ limit := by
  simp only [Duration.read] at h
  split at h
  · cases h
  split at h
  · cases h
  · cases h
    dsimp only
    split <;> omega

theorem Decimal.scaleInRange_of_read? {cs : List Char} {d : Decimal}
    (h : Decimal.read? cs = some d) : scaleInRange d.scale = true := by
  have hlast {digits scale : Int}
      (h : (if scaleInRange scale then some (⟨digits, scale⟩ : Decimal) else none) = some d) :
      scaleInRange d.scale = true := by
    obtain ⟨hscale, hd⟩ := Option.ite_none_right_eq_some.mp h
    cases hd
    exact hscale
  simp only [Decimal.read?, Option.bind_eq_bind] at h
  split at h
  all_goals
    obtain ⟨exponent, _, h⟩ := Option.bind_eq_some_iff.mp h
    obtain ⟨digits, _, h⟩ := Option.bind_eq_some_iff.mp h
    exact hlast h

namespace Uuid

theorem hexValue?_lt {c : Char} {n : Nat} (h : hexValue? c = some n) : n < 16 := by
  have hle {a b : Char} (h : a ≤ b) : a.toNat ≤ b.toNat := UInt32.le_iff_toNat_le.mp h
  have hdigit : '0'.toNat = 48 ∧ '9'.toNat = 57 := ⟨rfl, rfl⟩
  have hlower : 'a'.toNat = 97 ∧ 'f'.toNat = 102 := ⟨rfl, rfl⟩
  have hupper : 'A'.toNat = 65 ∧ 'F'.toNat = 70 := ⟨rfl, rfl⟩
  unfold hexValue? at h
  split at h
  · next hc =>
    have := hle (of_decide_eq_true (Bool.and_eq_true_iff.mp hc).2)
    cases h
    omega
  split at h
  · next hc =>
    have := hle (of_decide_eq_true (Bool.and_eq_true_iff.mp hc).2)
    cases h
    omega
  split at h
  · next hc =>
    have := hle (of_decide_eq_true (Bool.and_eq_true_iff.mp hc).2)
    cases h
    omega
  · cases h

theorem ofHexDigits?_lt {cs : List Char} {n : Nat} (h : ofHexDigits? cs = some n) :
    n < Nat.pow 16 cs.length := by
  induction cs using List.reverseRecOn generalizing n with
  | nil =>
    cases h
    decide
  | append_singleton cs c ih =>
    rw [ofHexDigits?_concat] at h
    simp only [Option.bind_eq_bind, Option.bind_eq_some_iff] at h
    obtain ⟨m, hm, k, hk, hn⟩ := h
    cases hn
    have hinit := ih hm
    have hlast := hexValue?_lt hk
    have hpow : Nat.pow 16 (cs ++ [c]).length = Nat.pow 16 cs.length * 16 := by
      rw [List.length_append]
      rfl
    omega

theorem lt_of_length {cs : List Char} {u : Uuid} (hlength : cs.length ≤ 32)
    (h : (ofHexDigits? cs).map .mk = some u) : u.value < Nat.pow 2 128 := by
  obtain ⟨n, hn, rfl⟩ := Option.map_eq_some_iff.mp h
  calc n < Nat.pow 16 cs.length := ofHexDigits?_lt hn
    _ ≤ Nat.pow 16 32 := Nat.pow_le_pow_right (by decide) hlength
    _ = Nat.pow 2 128 := by decide

theorem lt_of_readHyphenated? {cs : List Char} {u : Uuid} (h : readHyphenated? cs = some u) :
    u.value < Nat.pow 2 128 := by
  unfold readHyphenated? at h
  split at h
  · next hform =>
    refine lt_of_length ?_ h
    simp only [Bool.and_eq_true, decide_eq_true_eq] at hform
    simp only [List.length_append, List.length_take, List.length_drop]
    omega
  · cases h

theorem lt_of_read? {cs : List Char} {u : Uuid} (h : read? cs = some u) :
    u.value < Nat.pow 2 128 := by
  unfold read? at h
  split at h
  · next hlength => exact lt_of_length (Nat.le_of_eq hlength) h
  split at h
  · split at h
    · exact lt_of_readHyphenated? h
    · cases h
  split at h
  · exact lt_of_readHyphenated? h
  · exact lt_of_readHyphenated? h

end Uuid

/-- What is decoded at a kind is a value of the kind. -/
theorem Kind.holds_of_decode {k : Kind} {s : String} {v : Scalar} (h : k.decode s = .ok v) :
    k.Holds v := by
  cases k with
  | bool =>
    simp only [decode] at h
    split at h
    · cases h
      trivial
    split at h
    · cases h
      trivial
    · cases h
  | char =>
    simp only [decode] at h
    split at h
    · cases h
      trivial
    · cases h
  | integer t =>
    obtain ⟨n, hn, hv⟩ := map_eq_ok_iff.mp h
    have hholds := Integer.holds_of_read hn
    cases hsigned : t.signed with
    | true =>
      rw [if_pos hsigned] at hv
      cases hv
      exact ⟨hsigned, hholds⟩
    | false =>
      rw [if_neg (by simp [hsigned])] at hv
      cases hv
      have hlow := hholds.1
      simp only [IntegerType.depth, hsigned] at hlow
      have hnat : (n.toNat : Int) = n := Int.toNat_of_nonneg (by simpa using hlow)
      exact ⟨hsigned, hnat ▸ hholds⟩
  | float f =>
    obtain ⟨x, hx, rfl⟩ := map_eq_ok_iff.mp h
    exact ⟨rfl, Binary.magnitude_of_read hx⟩
  | decimal =>
    simp only [decode] at h
    split at h
    · next d hd =>
      cases h
      exact Decimal.scaleInRange_of_read? hd
    · cases h
  | string =>
    cases h
    trivial
  | dateTime =>
    simp only [decode] at h
    split at h
    · next t ht =>
      cases h
      exact DateTime.holds_of_read? ht
    · cases h
  | duration =>
    obtain ⟨d, hd, rfl⟩ := map_eq_ok_iff.mp h
    exact Duration.le_limit_of_read hd
  | uuid =>
    simp only [decode] at h
    split at h
    · next u hu =>
      cases h
      exact Uuid.lt_of_read? hu
    · cases h

end FilterQuery
