import FilterQuery.Proofs.Derivation
import FilterQuery.Proofs.Spelling
import Mathlib

namespace FilterQuery

/-! ## Characters -/

theorem isUppercase_eq_isUpper {c : Char} (h : c.isAlphanum = true) :
    Text.isUppercase c = c.isUpper := by
  -- The first run is that of the ASCII letters, and all others lie beyond ASCII.
  have hruns : Text.uppercaseRuns = (65, 90, 1) :: Text.uppercaseRuns.tail := rfl
  have hbeyond : ∀ run ∈ Text.uppercaseRuns.tail, 128 ≤ run.1 := by decide +kernel
  have hlt : c.toNat < 128 := by
    have hrange := isWordChar_toNat (c := c) (by rw [isWordChar, h, Bool.true_or])
    omega
  rw [Bool.eq_iff_iff, Text.isUppercase, List.any_eq_true, Char.isUpper, decide_eq_true_eq]
  apply Iff.intro
  · intro hrun
    obtain ⟨⟨first, last, step⟩, hmem, hrun⟩ := hrun
    simp only [Bool.and_eq_true, decide_eq_true_eq] at hrun
    rw [hruns] at hmem
    rcases List.mem_cons.mp hmem with hfirst | hmem
    · cases hfirst
      exact ⟨UInt32.le_iff_toNat_le.mpr hrun.1.1, UInt32.le_iff_toNat_le.mpr hrun.1.2⟩
    · have hfar := hbeyond _ hmem
      simp only at hfar
      omega
  · intro hrange
    have hlow : 65 ≤ c.toNat := UInt32.le_iff_toNat_le.mp hrange.1
    have hhigh : c.toNat ≤ 90 := UInt32.le_iff_toNat_le.mp hrange.2
    refine ⟨(65, 90, 1), hruns ▸ List.mem_cons_self, ?_⟩
    simp [hlow, hhigh, Nat.mod_one]

theorem isUppercase_toUpper {c : Char} (h : c.isAlpha = true) :
    Text.isUppercase c.toUpper = true := by
  have hupper : c.toUpper.isUpper = true := by rw [Char.isUpper_toUpper_eq_isAlpha, h]
  rw [isUppercase_eq_isUpper (by simp [Char.isAlphanum, Char.isAlpha, hupper]), hupper]

theorem not_isUppercase_of_isLower {c : Char} (h : c.isLower = true) :
    Text.isUppercase c = false := by
  rw [isUppercase_eq_isUpper (by simp [Char.isAlphanum, Char.isAlpha, h])]
  simpa using Char.not_isUpper_of_isLower h

theorem not_isUpper_of_isDigit {c : Char} (h : c.isDigit = true) : c.isUpper = false := by
  have hle : c.toNat ≤ 57 := (Char.isDigit_iff_toNat.mp h).2
  rw [Char.isUpper, decide_eq_false_iff_not]
  intro hrange
  have hge : 65 ≤ c.toNat := UInt32.le_iff_toNat_le.mp hrange.1
  omega

theorem not_isLower_of_isDigit {c : Char} (h : c.isDigit = true) : c.isLower = false := by
  have hle : c.toNat ≤ 57 := (Char.isDigit_iff_toNat.mp h).2
  rw [Char.isLower, Bool.and_eq_false_iff, decide_eq_false_iff_not]
  refine .inl ?_
  intro hlow
  have hge : 97 ≤ c.toNat := UInt32.le_iff_toNat_le.mp hlow
  omega

theorem not_isUppercase_of_isDigit {c : Char} (h : c.isDigit = true) :
    Text.isUppercase c = false := by
  rw [isUppercase_eq_isUpper (by simp [Char.isAlphanum, h]), not_isUpper_of_isDigit h]

theorem constant_cases (c : Char) :
    Text.isUppercase c = true ∨ c.isLower = true ∨ c.isDigit = true ∨
      Text.isUppercase c = false ∧ c.isAlphanum = false := by
  cases hupper : Text.isUppercase c with
  | true => exact .inl rfl
  | false =>
    cases halphanum : c.isAlphanum with
    | false => exact .inr (.inr (.inr ⟨rfl, rfl⟩))
    | true =>
      rw [isUppercase_eq_isUpper halphanum] at hupper
      rw [Char.isAlphanum, Char.isAlpha, hupper, Bool.false_or, Bool.or_eq_true] at halphanum
      exact .inr (halphanum.imp_right .inl)

/-! ## Names of constants -/

section

variable {c : Char} {cs : List Char} {before : Preceding}

theorem constantChars_upper (h : Text.isUppercase c = true) :
    constantChars before (c :: cs) =
      (if before = .lower then ['_', c] else [c]) ++ constantChars .other cs := by
  rw [constantChars, if_pos h]

theorem constantChars_lower (h : c.isLower = true) :
    constantChars before (c :: cs) = c.toUpper :: constantChars .lower cs := by
  rw [constantChars, if_neg (by simp [not_isUppercase_of_isLower h]),
    if_pos (by simp [Char.isAlphanum, Char.isAlpha, h]), if_pos h]

theorem constantChars_digit (h : c.isDigit = true) :
    constantChars before (c :: cs) = c :: constantChars .other cs := by
  have hlower := not_isLower_of_isDigit h
  rw [constantChars, if_neg (by simp [not_isUppercase_of_isDigit h]),
    if_pos (by simp [Char.isAlphanum, h]), if_neg (by simp [hlower]),
    Char.toUpper_eq_of_not_isLower (by simp [hlower])]

theorem constantChars_mark (hupper : Text.isUppercase c = false) (h : c.isAlphanum = false) :
    constantChars before (c :: cs) =
      (if before = .underscore then [] else ['_']) ++ constantChars .underscore cs := by
  rw [constantChars, if_neg (by simp [hupper]), if_neg (by simp [h])]

theorem constantChars_underscore (h : before ≠ .underscore) :
    constantChars before ('_' :: cs) = '_' :: constantChars .underscore cs := by
  rw [constantChars_mark (by decide +kernel) (by decide), if_neg h]
  rfl

end

/-- A digit or an upper-case character: what the name of a constant has besides underscores. -/
def IsConstantLetter (c : Char) : Prop :=
  c.isDigit = true ∨ Text.isUppercase c = true

theorem IsConstantLetter.ne_underscore {c : Char} (h : IsConstantLetter c) : c ≠ '_' := by
  rintro rfl
  rcases h with h | h
  · exact absurd h (by decide)
  · exact absurd h (by decide +kernel)

/-- A name of a constant in normal form: digits and upper-case characters, single underscores, and
no digit at the beginning. -/
structure IsConstantName (cs : List Char) : Prop where
  chars : ∀ c ∈ cs, c = '_' ∨ IsConstantLetter c
  apart : cs.IsChain fun a b => a = '_' → b ≠ '_'
  head : ∀ c ∈ cs.head?, c.isDigit = false

/-- The ways in which such a name goes on, after an underscore or after something else. -/
inductive Continues : (marked : Bool) → List Char → Prop
  | nil {marked : Bool} : Continues marked []
  | underscore {cs : List Char} : Continues true cs → Continues false ('_' :: cs)
  | letter {marked : Bool} {c : Char} {cs : List Char} : IsConstantLetter c → Continues false cs →
      Continues marked (c :: cs)

namespace Continues

variable {marked : Bool} {cs : List Char}

theorem chars (h : Continues marked cs) : ∀ c ∈ cs, c = '_' ∨ IsConstantLetter c := by
  induction h with
  | nil => simp
  | underscore _ ih => simpa using ih
  | letter hc _ ih => simpa using ⟨.inr hc, ih⟩

theorem head_ne (h : Continues true cs) : ∀ c ∈ cs.head?, c ≠ '_' := by
  cases h with
  | nil => simp
  | letter hc _ => simpa using hc.ne_underscore

theorem apart (h : Continues marked cs) : cs.IsChain fun a b => a = '_' → b ≠ '_' := by
  induction h with
  | nil => exact .nil
  | underscore h ih => exact List.isChain_cons.mpr ⟨fun c hc _ => h.head_ne c hc, ih⟩
  | letter hc _ ih => exact List.isChain_cons.mpr ⟨fun _ _ h => absurd h hc.ne_underscore, ih⟩

theorem of_chars (hchars : ∀ c ∈ cs, c = '_' ∨ IsConstantLetter c)
    (hapart : cs.IsChain fun a b => a = '_' → b ≠ '_')
    (hmarked : marked = true → ∀ c ∈ cs.head?, c ≠ '_') : Continues marked cs := by
  induction cs generalizing marked with
  | nil => exact .nil
  | cons c cs ih =>
    obtain ⟨hc, hcs⟩ := List.forall_mem_cons.mp hchars
    obtain ⟨hnext, hrest⟩ := List.isChain_cons.mp hapart
    rcases hc with rfl | hc
    · cases marked with
      | false => exact .underscore (ih hcs hrest fun _ d hd => hnext d hd rfl)
      | true => exact absurd rfl (hmarked rfl '_' rfl)
    · exact .letter hc (ih hcs hrest (by simp))

theorem constantChars_eq (h : Continues marked cs) :
    constantChars (if marked then .underscore else .other) cs = cs := by
  induction h with
  | nil => rw [constantChars]
  | underscore _ ih =>
    exact (constantChars_underscore (by decide)).trans (congrArg ('_' :: ·) ih)
  | @letter marked c cs hc _ ih =>
    rcases hc with hdigit | hupper
    · rw [constantChars_digit hdigit]
      exact congrArg (c :: ·) ih
    · rw [constantChars_upper hupper]
      cases marked <;> exact congrArg (c :: ·) ih

end Continues

theorem continues_constantChars (before : Preceding) (cs : List Char) :
    Continues (before == .underscore) (constantChars before cs) := by
  induction cs generalizing before with
  | nil => exact .nil
  | cons c cs ih =>
    rcases constant_cases c with hupper | hlower | hdigit | ⟨hupper, halphanum⟩
    · rw [constantChars_upper hupper]
      cases before with
      | lower => exact .underscore (.letter (.inr hupper) (ih .other))
      | underscore | other => exact .letter (.inr hupper) (ih .other)
    · rw [constantChars_lower hlower]
      exact .letter (.inr (isUppercase_toUpper (by simp [Char.isAlpha, hlower]))) (ih .lower)
    · rw [constantChars_digit hdigit]
      exact .letter (.inl hdigit) (ih .other)
    · rw [constantChars_mark hupper halphanum]
      cases before with
      | underscore => exact ih .underscore
      | lower | other => exact .underscore (ih .underscore)

theorem guardDigit_eq_self {cs : List Char} (h : ∀ c ∈ cs.head?, c.isDigit = false) :
    guardDigit cs = cs := by
  cases cs with
  | nil => rfl
  | cons c cs => rw [guardDigit, h c rfl, if_neg Bool.false_ne_true]

theorem isConstantName_guardDigit {cs : List Char} (h : Continues false cs) :
    IsConstantName (guardDigit cs) := by
  by_cases hhead : ∀ c ∈ cs.head?, c.isDigit = false
  · rw [guardDigit_eq_self hhead]
    exact ⟨h.chars, h.apart, hhead⟩
  · cases h with
    | nil => exact absurd (by simp) hhead
    | underscore => exact absurd (by simp) hhead
    | @letter _ c cs hc hcs =>
      have hdigit : c.isDigit = true := by simpa using hhead
      have hmarked : Continues false ('_' :: c :: cs) := .underscore (.letter hc hcs)
      rw [guardDigit, if_pos hdigit]
      exact ⟨hmarked.chars, hmarked.apart, by simp⟩

theorem isConstantName_constantName (name : String) :
    IsConstantName (constantName name).toList := by
  rw [constantName, String.toList_ofList]
  exact isConstantName_guardDigit (continues_constantChars .other name.toList)

theorem constantName_eq_self_iff {name : String} :
    constantName name = name ↔ IsConstantName name.toList := by
  apply Iff.intro
  · intro h
    rw [← h]
    exact isConstantName_constantName name
  · intro h
    have hcontinues : Continues false name.toList := .of_chars h.chars h.apart (by simp)
    have hchars : constantChars .other name.toList = name.toList := hcontinues.constantChars_eq
    rw [constantName, hchars, guardDigit_eq_self h.head, String.ofList_toList]

/-! ## Rules -/

theorem humps_cons {upper : Bool} {c : Char} {cs : List Char} (h : c ≠ '_') :
    humps upper (c :: cs) = (if upper then c.toUpper else c) :: humps false cs := by
  rw [humps, if_neg h]

theorem humps_underscore {upper : Bool} {cs : List Char} :
    humps upper ('_' :: cs) = humps true cs := by
  rw [humps, if_pos rfl]

/-- Up to the case of letters, only the underscores are dropped. -/
theorem toLower_humps (upper : Bool) (cs : List Char) :
    (humps upper cs).map Char.toLower = (cs.filter (· != '_')).map Char.toLower := by
  induction cs generalizing upper with
  | nil => rw [humps]; rfl
  | cons c cs ih =>
    by_cases hc : c = '_'
    · rw [hc, humps_underscore, ih]
      rfl
    · rw [humps_cons hc, List.map_cons, ih, List.filter_cons_of_pos (by simpa using hc),
        List.map_cons]
      cases upper <;> simp [Char.toLower_toUpper_eq_toLower]

theorem humps_append {word : List Char} (h : '_' ∉ word) (cs : List Char) :
    humps false (word ++ cs) = word ++ humps false cs := by
  induction word with
  | nil => rfl
  | cons c word ih =>
    obtain ⟨hc, hword⟩ := List.ne_and_not_mem_of_not_mem_cons h
    rw [List.cons_append, humps_cons hc.symm, ih hword]
    rfl

theorem humps_true (cs : List Char) :
    humps true cs = (humps false (cs.dropWhile (· == '_'))).modifyHead Char.toUpper := by
  induction cs with
  | nil => rfl
  | cons c cs ih =>
    by_cases hc : c = '_'
    · rw [hc, humps_underscore, ih]
      rfl
    · rw [humps_cons hc, List.dropWhile_cons_of_neg (by simpa using hc), humps_cons hc]
      rfl

theorem toUpper_ne_underscore {c : Char} (h : c ≠ '_') : c.toUpper ≠ '_' := by
  by_cases hlower : c.isLower = true
  · have hupper := isUppercase_toUpper (c := c) (by simp [Char.isAlpha, hlower])
    exact IsConstantLetter.ne_underscore (.inr hupper)
  · rwa [Char.toUpper_eq_of_not_isLower hlower]

theorem not_mem_humps (upper : Bool) (cs : List Char) : '_' ∉ humps upper cs := by
  induction cs generalizing upper with
  | nil => simp [humps]
  | cons c cs ih =>
    by_cases hc : c = '_'
    · rw [hc, humps_underscore]
      exact ih true
    · rw [humps_cons hc, List.mem_cons, not_or]
      refine ⟨?_, ih false⟩
      cases upper with
      | false => exact Ne.symm hc
      | true => exact (toUpper_ne_underscore hc).symm

namespace NamingRule

theorem camel_eq_humps {cs : List Char} (h : ∀ c ∈ cs.head?, c ≠ '_') :
    camel.applyChars cs = humps false cs := by
  cases cs with
  | nil => rfl
  | cons c cs =>
    rw [applyChars, List.dropWhile_cons_of_neg (by simpa using h c rfl)]

theorem camel_eq_self {cs : List Char} (h : '_' ∉ cs) : camel.applyChars cs = cs := by
  have hhead : ∀ c ∈ cs.head?, c ≠ '_' :=
    fun c hc => ne_of_mem_of_not_mem (List.mem_of_mem_head? hc) h
  have hwhole := humps_append h []
  rw [humps, List.append_nil] at hwhole
  rw [camel_eq_humps hhead, hwhole]

/-- The two rules differ in the first letter only, which one of them puts in upper case. -/
theorem pascal_eq_camel (cs : List Char) :
    pascal.applyChars cs = (camel.applyChars cs).modifyHead Char.toUpper :=
  humps_true cs

theorem toLower_applyChars {r : NamingRule} (hr : r ≠ .snake) (cs : List Char) :
    (r.applyChars cs).map Char.toLower = (cs.filter (· != '_')).map Char.toLower := by
  cases r with
  | snake => exact absurd rfl hr
  | pascal => exact toLower_humps true cs
  | camel =>
    rw [← toLower_humps true cs, humps_true, applyChars]
    cases humps false (cs.dropWhile (· == '_')) with
    | nil => rfl
    | cons c hs =>
      rw [List.modifyHead_cons, List.map_cons, List.map_cons, Char.toLower_toUpper_eq_toLower]

theorem applyChars_applyChars (r : NamingRule) (cs : List Char) :
    r.applyChars (r.applyChars cs) = r.applyChars cs := by
  have hcamel : camel.applyChars (camel.applyChars cs) = camel.applyChars cs :=
    camel_eq_self (not_mem_humps false _)
  cases r with
  | snake => rfl
  | camel => exact hcamel
  | pascal =>
    have hpascal : camel.applyChars (pascal.applyChars cs) = pascal.applyChars cs :=
      camel_eq_self (not_mem_humps true cs)
    rw [pascal_eq_camel, hpascal, pascal_eq_camel, List.modifyHead_modifyHead]
    congr 1
    exact funext Char.toUpper_toUpper_eq_toUpper

end NamingRule

/-! ## Words -/

/-- A lower-case word of two letters at least. -/
structure IsWord (w : List Char) : Prop where
  length : 2 ≤ w.length
  lower : ∀ c ∈ w, c.isLower = true

instance {w : List Char} : Decidable (IsWord w) :=
  decidable_of_iff (2 ≤ w.length ∧ w.all Char.isLower = true)
    ⟨fun h => ⟨h.1, List.all_eq_true.mp h.2⟩, fun h => ⟨h.length, List.all_eq_true.mpr h.lower⟩⟩

/-- A text of such words with an underscore between each two. -/
inductive Words : List Char → Prop
  | word {w : List Char} : IsWord w → Words w
  | append {w cs : List Char} : IsWord w → Words cs → Words (w ++ '_' :: cs)

theorem constantChars_word {w : List Char} (hne : w ≠ []) (hw : ∀ c ∈ w, c.isLower = true)
    (before : Preceding) (cs : List Char) :
    constantChars before (w ++ cs) = w.map Char.toUpper ++ constantChars .lower cs := by
  induction w generalizing before with
  | nil => exact absurd rfl hne
  | cons c w ih =>
    obtain ⟨hc, hw⟩ := List.forall_mem_cons.mp hw
    rw [List.cons_append, constantChars_lower hc]
    cases w with
    | nil => rfl
    | cons d w =>
      rw [ih (by simp) hw]
      rfl

namespace IsWord

variable {w : List Char}

theorem exists_cons (h : IsWord w) :
    ∃ c v, w = c :: v ∧ c.isLower = true ∧ v ≠ [] ∧ ∀ d ∈ v, d.isLower = true := by
  obtain ⟨hlength, hlower⟩ := h
  match w, hlength with
  | c :: d :: v, _ =>
    obtain ⟨hc, hv⟩ := List.forall_mem_cons.mp hlower
    exact ⟨c, d :: v, rfl, hc, by simp, hv⟩

theorem ne_nil (h : IsWord w) : w ≠ [] := by
  obtain ⟨c, v, rfl, _⟩ := h.exists_cons
  exact List.cons_ne_nil c v

theorem underscore_not_mem (h : IsWord w) : '_' ∉ w := by
  intro hmem
  exact absurd (h.lower '_' hmem) (by decide)

theorem humps_true (h : IsWord w) (cs : List Char) :
    humps true (w ++ cs) = w.modifyHead Char.toUpper ++ humps false cs := by
  have hmark := h.underscore_not_mem
  obtain ⟨c, v, rfl, _⟩ := h.exists_cons
  obtain ⟨hc, hv⟩ := List.ne_and_not_mem_of_not_mem_cons hmark
  rw [List.cons_append, humps_cons hc.symm, humps_append hv]
  rfl

/-- After a letter in lower case, an underscore marks where a capitalized word begins. -/
theorem constantChars_capitalized (h : IsWord w) (before : Preceding) (cs : List Char) :
    constantChars before (w.modifyHead Char.toUpper ++ cs) =
      (if before = .lower then ['_'] else []) ++ w.map Char.toUpper ++
        constantChars .lower cs := by
  obtain ⟨c, v, rfl, hc, hne, hv⟩ := h.exists_cons
  have hupper := isUppercase_toUpper (c := c) (by simp [Char.isAlpha, hc])
  rw [List.modifyHead_cons, List.cons_append, constantChars_upper hupper,
    constantChars_word hne hv]
  split <;> rfl

end IsWord

namespace Words

variable {cs : List Char}

theorem exists_cons (h : Words cs) : ∃ c rest, cs = c :: rest ∧ c.isLower = true := by
  cases h with
  | word hw =>
    obtain ⟨c, v, rfl, hc, _⟩ := hw.exists_cons
    exact ⟨c, v, rfl, hc⟩
  | append hw _ =>
    obtain ⟨c, v, rfl, hc, _⟩ := hw.exists_cons
    exact ⟨c, _, rfl, hc⟩

theorem constantChars_eq (h : Words cs) (before : Preceding) :
    constantChars before cs = cs.map Char.toUpper := by
  induction h generalizing before with
  | @word w hw =>
    have hword := constantChars_word hw.ne_nil hw.lower before []
    rwa [List.append_nil, constantChars, List.append_nil] at hword
  | append hw _ ih =>
    rw [constantChars_word hw.ne_nil hw.lower, constantChars_underscore (by decide), ih,
      List.map_append]
    rfl

/-- The humps stand where the underscores were. -/
theorem constantChars_humps (h : Words cs) (before : Preceding) :
    constantChars before (humps true cs) =
      (if before = .lower then ['_'] else []) ++ cs.map Char.toUpper := by
  induction h generalizing before with
  | @word w hw =>
    have hword := hw.constantChars_capitalized before (humps false [])
    rw [← hw.humps_true, List.append_nil, humps, constantChars, List.append_nil] at hword
    exact hword
  | @append w cs hw _ ih =>
    rw [hw.humps_true, humps_underscore, hw.constantChars_capitalized, ih, List.append_assoc,
      List.map_append]
    rfl

theorem constantChars_camel (h : Words cs) :
    constantChars .other (NamingRule.camel.applyChars cs) = cs.map Char.toUpper := by
  cases h with
  | word hw =>
    rw [NamingRule.camel_eq_self hw.underscore_not_mem]
    exact constantChars_eq (.word hw) .other
  | @append w cs hw hcs =>
    have hhead : ∀ c ∈ (w ++ '_' :: cs).head?, c ≠ '_' := by
      obtain ⟨c, rest, hcons, hc⟩ := exists_cons (.append hw hcs)
      rw [hcons]
      rintro d ⟨⟩ rfl
      exact absurd hc (by decide)
    rw [NamingRule.camel_eq_humps hhead, humps_append hw.underscore_not_mem, humps_underscore,
      constantChars_word hw.ne_nil hw.lower, hcs.constantChars_humps, List.map_append]
    rfl

theorem constantChars_applyChars (h : Words cs) (r : NamingRule) :
    constantChars .other (r.applyChars cs) = cs.map Char.toUpper := by
  cases r with
  | snake => exact h.constantChars_eq .other
  | camel => exact h.constantChars_camel
  | pascal => exact h.constantChars_humps .other

theorem constantName_apply {name : String} (h : Words name.toList) (r : NamingRule) :
    constantName (r.apply name) = name.toUpper := by
  have hhead : ∀ c ∈ (name.toList.map Char.toUpper).head?, c.isDigit = false := by
    obtain ⟨c, rest, hname, hc⟩ := h.exists_cons
    have hupper : c.toUpper.isUpper = true := by
      rw [Char.isUpper_toUpper_eq_isAlpha, Char.isAlpha, hc, Bool.or_true]
    rw [hname]
    rintro d ⟨⟩
    rw [Bool.eq_false_iff]
    intro hdigit
    rw [not_isUpper_of_isDigit hdigit] at hupper
    cases hupper
  rw [constantName, NamingRule.apply, String.toList_ofList, h.constantChars_applyChars,
    guardDigit_eq_self hhead, String.toUpper, ← String.toList_map, String.ofList_toList]

theorem map_toLower (h : Words cs) : cs.map Char.toLower = cs := by
  have hword {w : List Char} (hw : IsWord w) : w.map Char.toLower = w := by
    apply (List.map_congr_left ?_).trans (List.map_id w)
    intro c hc
    exact Char.toLower_eq_of_not_isUpper (Char.not_isUpper_of_isLower (hw.lower c hc))
  induction h with
  | word hw => exact hword hw
  | append hw _ ih =>
    rw [List.map_append, hword hw, List.map_cons, ih]
    rfl

theorem toUpper_inj {s t : String} (hs : Words s.toList) (ht : Words t.toList)
    (h : s.toUpper = t.toUpper) : s = t := by
  have hlower := congrArg (fun u : String => u.toList.map Char.toLower) h
  simp only [String.toUpper, String.toList_map, List.map_map, Function.comp_def,
    Char.toLower_toUpper_eq_toLower] at hlower
  rw [hs.map_toLower, ht.map_toLower] at hlower
  exact String.toList_inj.mp hlower

theorem exists_toUpper {name : String} (h : Words name.toList) :
    ∃ c ∈ name.toUpper.toList, c ≠ '_' := by
  obtain ⟨c, rest, hname, hc⟩ := h.exists_cons
  refine ⟨c.toUpper, ?_, ?_⟩
  · simp [String.toUpper, String.toList_map, hname]
  · apply toUpper_ne_underscore
    rintro rfl
    exact absurd hc (by decide)

end Words

/-! ## Constants of derived properties -/

variable {μ : Type}

theorem DeclaredField.constant_of_words {f : DeclaredField μ} (hname : f.rename? = none)
    (h : Words f.plain.toList) (rule? : Option NamingRule) :
    (f.derived rule?).constant = f.plain.toUpper := by
  cases rule? with
  | none =>
    have hsnake := h.constantName_apply .snake
    simpa [NamingRule.apply, NamingRule.applyChars, derived, queryName, hname] using hsnake
  | some r => simpa [derived, queryName, hname] using h.constantName_apply r

theorem DeclaredField.property?_of_words {f : DeclaredField μ} (hwf : f.WellFormed)
    (hskip : f.skipped = false) (hname : f.rename? = none) (h : Words f.plain.toList)
    (rule? : Option NamingRule) :
    f.property? rule? = .ok (some ⟨f.queryName rule?, f.plain.toUpper, f⟩) := by
  rw [property?_of_wellFormed hwf, hskip, ← constant_of_words hname h rule?]
  rfl

/-- Whether each field that is kept goes by its own name, and that is a text of words. -/
structure Declaration.Wordy (d : Declaration μ) : Prop where
  wellFormed : ∀ f ∈ d.fields, f.WellFormed
  unnamed : ∀ f ∈ d.fields, f.skipped = false → f.rename? = none
  words : ∀ f ∈ d.fields, f.skipped = false → Words f.plain.toList
  distinct : (d.fields.map (·.plain)).Nodup

namespace Declaration

variable {d : Declaration μ}

theorem Wordy.map_constant (h : d.Wordy) (rule? : Option NamingRule) :
    (derivedProperties rule? d.fields).map (·.constant) =
      (d.fields.filter (!·.skipped)).map (·.plain.toUpper) := by
  rw [derivedProperties, List.map_map]
  apply List.map_congr_left
  intro f hf
  obtain ⟨hmem, hkept⟩ := List.mem_filter.mp hf
  have hskip : f.skipped = false := by simpa using hkept
  exact f.constant_of_words (h.unnamed f hmem hskip) (h.words f hmem hskip) rule?

theorem Wordy.nodup_constant (h : d.Wordy) (rule? : Option NamingRule) :
    ((derivedProperties rule? d.fields).map (·.constant)).Nodup := by
  have hkept : ((d.fields.filter (!·.skipped)).map (·.plain)).Nodup :=
    h.distinct.sublist (List.filter_sublist.map _)
  have hwords : ∀ s ∈ (d.fields.filter (!·.skipped)).map (·.plain), Words s.toList := by
    intro s hs
    obtain ⟨f, hf, rfl⟩ := List.mem_map.mp hs
    obtain ⟨hmem, hskip⟩ := List.mem_filter.mp hf
    exact h.words f hmem (by simpa using hskip)
  have hupper := hkept.map_on (f := String.toUpper) fun s hs t ht =>
    (hwords s hs).toUpper_inj (hwords t ht)
  rw [List.map_map] at hupper
  rwa [h.map_constant]

theorem Wordy.unambiguous (h : d.Wordy) (rule? : Option NamingRule) :
    Unambiguous rule? d.fields := by
  have hconstants := h.nodup_constant rule?
  refine ⟨h.wellFormed, ?_, hconstants, ?_⟩
  · have hnames : (derivedProperties rule? d.fields).map (·.constant) =
        ((derivedProperties rule? d.fields).map (·.name)).map constantName := by
      simp [derivedProperties, DeclaredField.derived, Function.comp_def]
    rw [hnames] at hconstants
    exact hconstants.of_map
  · intro p hp
    have hmem := List.mem_map_of_mem (f := (·.constant)) hp
    rw [h.map_constant] at hmem
    obtain ⟨f, hf, hconstant⟩ := List.mem_map.mp hmem
    obtain ⟨hfield, hskip⟩ := List.mem_filter.mp hf
    obtain ⟨c, hc, hne⟩ := (h.words f hfield (by simpa using hskip)).exists_toUpper
    exact ⟨c, hconstant ▸ hc, hne⟩

/-- The constants are the names of fields in upper case, whatever the rule for names is. -/
theorem properties_of_wordy (hd : d.Derivable) (h : d.Wordy) :
    ∃ ps, d.properties = .ok ps ∧
      ps.map (·.constant) = (d.fields.filter (!·.skipped)).map (·.plain.toUpper) := by
  refine ⟨derivedProperties d.rule? d.fields, ?_, h.map_constant d.rule?⟩
  exact properties_eq_ok_iff.mpr ⟨hd, h.unambiguous d.rule?, rfl⟩

end Declaration

/-- Names of constants are normal forms, and no other names are left as they are. The rules with
humps drop underscores and nothing else, leave their own results as they are, and differ in the
first letter only. A field whose name is a text of words has one constant by every rule and by
none, and a declaration with such fields is derived by every rule. -/
theorem naming_normal_forms :
    (∀ name, IsConstantName (constantName name).toList) ∧
    (∀ name, constantName name = name ↔ IsConstantName name.toList) ∧
    (∀ name, constantName (constantName name) = constantName name) ∧
    (∀ (r : NamingRule) name, r ≠ .snake →
      Text.sameIgnoringCase (r.apply name) (.ofList (name.toList.filter (· != '_'))) = true) ∧
    (∀ (r : NamingRule) name, r.apply (r.apply name) = r.apply name) ∧
    (∀ name, (NamingRule.pascal.apply name).toList =
      (NamingRule.camel.apply name).toList.modifyHead Char.toUpper) ∧
    (∀ f : DeclaredField μ, f.WellFormed → f.skipped = false → f.rename? = none →
      Words f.plain.toList → ∀ rule?,
        f.property? rule? = .ok (some ⟨f.queryName rule?, f.plain.toUpper, f⟩)) ∧
    ∀ d : Declaration μ, d.Derivable → d.Wordy → ∃ ps, d.properties = .ok ps ∧
      ps.map (·.constant) = (d.fields.filter (!·.skipped)).map (·.plain.toUpper) := by
  refine ⟨isConstantName_constantName, fun _ => constantName_eq_self_iff, ?_, ?_, ?_, ?_,
    fun _ => DeclaredField.property?_of_words, fun _ => Declaration.properties_of_wordy⟩
  · intro name
    exact constantName_eq_self_iff.mpr (isConstantName_constantName name)
  · intro r name hr
    simp only [Text.sameIgnoringCase, Text.folded, NamingRule.apply, String.toList_ofList,
      beq_iff_eq]
    exact NamingRule.toLower_applyChars hr name.toList
  · intro r name
    simp only [NamingRule.apply, String.toList_ofList, NamingRule.applyChars_applyChars]
  · intro name
    simp only [NamingRule.apply, String.toList_ofList, NamingRule.pascal_eq_camel]

/-- A declaration with a rule, a reserved word, and a field that is left out. -/
def articles : Declaration Unit where
  attributes := [⟨"sift", [⟨"rename_all", .text "camelCase"⟩]⟩]
  fields :=
    [⟨"page_count", [], ()⟩, ⟨"r#type", [], ()⟩, ⟨"_x", [⟨"sift", [.skip]⟩], ()⟩,
      ⟨"last_read_at", [], ()⟩]

theorem wordy_articles : articles.Wordy := by
  have hwords : ∀ s ∈ ["page_count", "type", "last_read_at"], Words s.toList := by
    have hone : Words "type".toList := .word (by decide)
    have htwo : Words ("page".toList ++ '_' :: "count".toList) :=
      .append (by decide) (.word (by decide))
    have hthree : Words ("last".toList ++ '_' :: ("read".toList ++ '_' :: "at".toList)) :=
      .append (by decide) (.append (by decide) (.word (by decide)))
    simpa using ⟨htwo, hone, hthree⟩
  have hkept : ∀ f ∈ articles.fields, f.skipped = false →
      f.rename? = none ∧ f.plain ∈ ["page_count", "type", "last_read_at"] := by
    decide +kernel
  exact ⟨by decide +kernel, fun f hf hs => (hkept f hf hs).1,
    fun f hf hs => hwords _ (hkept f hf hs).2, by decide +kernel⟩

theorem naming_normal_forms_articles :
    Text.sameIgnoringCase (NamingRule.camel.apply "_last__read_At")
        (.ofList ("_last__read_At".toList.filter (· != '_'))) = true ∧
    (∀ f ∈ articles.fields, f.skipped = false →
      f.property? (some .pascal) = .ok (some ⟨f.queryName (some .pascal), f.plain.toUpper, f⟩)) ∧
    ∃ ps, articles.properties = .ok ps ∧
      ps.map (·.constant) = ["PAGE_COUNT", "TYPE", "LAST_READ_AT"] := by
  obtain ⟨_, _, _, hdropped, _, _, hfield, hdeclaration⟩ := @naming_normal_forms Unit
  have hwordy := wordy_articles
  have hconstants : (articles.fields.filter (!·.skipped)).map (·.plain.toUpper) =
      ["PAGE_COUNT", "TYPE", "LAST_READ_AT"] := by
    decide +kernel
  refine ⟨hdropped .camel "_last__read_At" (by decide), ?_, ?_⟩
  · intro f hf hs
    exact hfield f (hwordy.wellFormed f hf) hs (hwordy.unnamed f hf hs) (hwordy.words f hf hs)
      (some .pascal)
  · rw [← hconstants]
    exact hdeclaration articles ⟨rfl, rfl, by decide +kernel⟩ hwordy

end FilterQuery
