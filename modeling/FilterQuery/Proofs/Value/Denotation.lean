import FilterQuery.Proofs.Value.Words
import Mathlib.Algebra.Order.Field.Basic
import Mathlib.Algebra.Order.Field.Rat
import Mathlib.Tactic.FieldSimp
import Mathlib.Tactic.Ring

namespace FilterQuery.Duration

/-- Digits and a point in front of the hours count days. -/
inductive WritesDays : List Char → Nat → Prop
  | none : WritesDays [] 0
  | count {ds : List Char} : ds ≠ [] → Text.allDigits ds = true →
      WritesDays (ds ++ ['.']) (Text.ofDigits ds)

/-- A point and one to nine digits behind the seconds are a part of a second. -/
inductive WritesFraction : List Char → ℚ → Prop
  | none : WritesFraction [] 0
  | digits {fs : List Char} : fs ≠ [] → fs.length ≤ 9 → Text.allDigits fs = true →
      WritesFraction ('.' :: fs) (Text.ofDigits fs / 10 ^ fs.length)

inductive DenotesMagnitude : List Char → ℚ → Prop
  | intro {ds hs ms ss fs : List Char} {days : Nat} {fraction : ℚ} :
      WritesDays ds days → IsPair 24 hs → IsPair 60 ms → IsPair 60 ss →
      WritesFraction fs fraction →
      DenotesMagnitude (ds ++ hs ++ ':' :: (ms ++ ':' :: (ss ++ fs)))
        (days * 86400 + Text.ofDigits hs * 3600 + Text.ofDigits ms * 60 + Text.ofDigits ss +
          fraction)

/-- A text of the form `[-][d.]hh:mm:ss[.f]`, and how many seconds it stands for. -/
inductive Denotes : List Char → ℚ → Prop
  | positive {cs : List Char} {q : ℚ} : DenotesMagnitude cs q → Denotes cs q
  | negative {cs : List Char} {q : ℚ} : DenotesMagnitude cs q → Denotes ('-' :: cs) (-q)

def seconds (d : Duration) : ℚ := d.nanos / 10 ^ 9

/-- The length of the longest span: as many milliseconds as the greatest signed number of 64
bits. -/
def longest : ℚ := (2 ^ 63 - 1) / 1000

/-! ## Parts of a text -/

theorem padded_value (m : Nat) {k : Nat} (h : k ≤ 9) :
    ((m * Nat.pow 10 (9 - k) : Nat) : ℚ) / 10 ^ 9 = m / 10 ^ k := by
  have hpow : (10 : ℚ) ^ 9 = 10 ^ (9 - k) * 10 ^ k := by
    rw [← pow_add, Nat.sub_add_cancel h]
  have hcast : ((Nat.pow 10 (9 - k) : Nat) : ℚ) = 10 ^ (9 - k) := Nat.cast_pow 10 (9 - k)
  rw [Nat.cast_mul, hcast, hpow]
  field_simp

theorem splitDays?_sound {head hours : List Char} {days : Nat}
    (h : splitDays? head = some (days, hours)) :
    ∃ ds, WritesDays ds days ∧ head = ds ++ hours := by
  rw [splitDays?] at h
  split at h
  · next ds rest hsplit =>
    obtain ⟨n, hn, h⟩ := Option.map_eq_some_iff.mp h
    cases h
    obtain ⟨hne, hdigits, _, rfl⟩ := readDays?_eq_some_iff.mp hn
    obtain ⟨_, rfl⟩ := Text.splitAtFirst?_eq_some_iff.mp hsplit
    exact ⟨ds ++ ['.'], .count hne hdigits, by simp⟩
  · cases h
    exact ⟨[], .none, rfl⟩

theorem splitDays?_complete {ds hours : List Char} {days : Nat} (h : WritesDays ds days)
    (hdays : days < 9223372036854775808) (hhours : '.' ∉ hours) :
    splitDays? (ds ++ hours) = some (days, hours) := by
  cases h with
  | none => rw [List.nil_append, splitDays?, Text.splitAtFirst?_eq_none hhours]
  | count hne hdigits =>
    have hpoint := Text.not_mem_of_allDigits hdigits (c := '.') rfl
    have hread := readDays?_eq_some_iff.mpr ⟨hne, hdigits, hdays, rfl⟩
    simp only [List.append_assoc, List.singleton_append, splitDays?,
      Text.splitAtFirst?_append hours hpoint, hread, Option.map_some]

theorem splitNanos?_sound {tail seconds : List Char} {nanos : Nat}
    (h : splitNanos? tail = some (seconds, nanos)) :
    ∃ fs, WritesFraction fs (nanos / 10 ^ 9) ∧ tail = seconds ++ fs := by
  rw [splitNanos?] at h
  split at h
  · next ss fs hsplit =>
    obtain ⟨n, hn, h⟩ := Option.map_eq_some_iff.mp h
    cases h
    obtain ⟨hne, hlength, hdigits, rfl⟩ := readNanos?_eq_some_iff.mp hn
    obtain ⟨_, rfl⟩ := Text.splitAtFirst?_eq_some_iff.mp hsplit
    rw [padded_value _ hlength]
    exact ⟨'.' :: fs, .digits hne hlength hdigits, rfl⟩
  · cases h
    refine ⟨[], ?_, (List.append_nil _).symm⟩
    simpa using WritesFraction.none

theorem splitNanos?_complete {fs seconds : List Char} {fraction : ℚ}
    (h : WritesFraction fs fraction) (hseconds : '.' ∉ seconds) :
    ∃ nanos : Nat, splitNanos? (seconds ++ fs) = some (seconds, nanos) ∧
      fraction = nanos / 10 ^ 9 := by
  cases h with
  | none =>
    refine ⟨0, ?_, by simp⟩
    rw [List.append_nil, splitNanos?, Text.splitAtFirst?_eq_none hseconds]
  | @digits fs hne hlength hdigits =>
    refine ⟨_, ?_, (padded_value (Text.ofDigits fs) hlength).symm⟩
    have hread := readNanos?_eq_some_iff.mpr ⟨hne, hlength, hdigits, rfl⟩
    simp only [splitNanos?, Text.splitAtFirst?_append fs hseconds, hread, Option.map_some]

/-! ## Texts without a sign -/

theorem Parts.seconds_total (p : Parts) :
    (p.total : ℚ) / 10 ^ 9 =
      p.days * 86400 + p.hours * 3600 + p.minutes * 60 + p.seconds + p.nanos / 10 ^ 9 := by
  simp only [total, secondsPerDay, nanosPerSecond, Nat.cast_add, Nat.cast_mul, Nat.cast_ofNat]
  ring

theorem readParts?_sound {cs : List Char} {p : Parts} (h : readParts? cs = some p) :
    DenotesMagnitude cs (p.total / 10 ^ 9) := by
  simp only [readParts?, Option.bind_eq_bind, Option.bind_eq_some_iff, Prod.exists] at h
  obtain ⟨head, rest, hhead, ms, tail, hmiddle, days, hs, hdays, ss, nanos, hnanos, hours, hhours,
    minutes, hminutes, seconds, hseconds, h⟩ := h
  cases h
  obtain ⟨_, rfl⟩ := Text.splitAtFirst?_eq_some_iff.mp hhead
  obtain ⟨_, rfl⟩ := Text.splitAtFirst?_eq_some_iff.mp hmiddle
  obtain ⟨ds, hds, rfl⟩ := splitDays?_sound hdays
  obtain ⟨fs, hfs, rfl⟩ := splitNanos?_sound hnanos
  obtain ⟨hhs, rfl⟩ := readPair?_eq_some_iff.mp hhours
  obtain ⟨hms, rfl⟩ := readPair?_eq_some_iff.mp hminutes
  obtain ⟨hss, rfl⟩ := readPair?_eq_some_iff.mp hseconds
  rw [Parts.seconds_total]
  exact .intro hds hhs hms hss hfs

theorem not_mem_writesDays {ds : List Char} {days : Nat} {c : Char} (h : WritesDays ds days)
    (hc : c.isDigit = false) (hpoint : c ≠ '.') : c ∉ ds := by
  cases h with
  | none => exact List.not_mem_nil
  | count hne hdigits => simpa [hpoint] using Text.not_mem_of_allDigits hdigits hc

theorem not_mem_pair {bound : Nat} {cs : List Char} {c : Char} (h : IsPair bound cs)
    (hc : c.isDigit = false) : c ∉ cs :=
  Text.not_mem_of_allDigits h.2.1 hc

/-- What a text stands for is the total of some parts, which are read if the total is in range:
then the days fit their word. -/
theorem DenotesMagnitude.exists_parts {cs : List Char} {q : ℚ} (h : DenotesMagnitude cs q) :
    ∃ p : Parts, q = p.total / 10 ^ 9 ∧ (p.total ≤ limit → readParts? cs = some p) := by
  cases h with
  | @intro ds hs ms ss fs days fraction hds hhs hms hss hfs =>
    obtain ⟨nanos, hnanos, rfl⟩ := splitNanos?_complete hfs (not_mem_pair hss rfl)
    refine ⟨⟨days, Text.ofDigits hs, Text.ofDigits ms, Text.ofDigits ss, nanos⟩, ?_, ?_⟩
    · rw [Parts.seconds_total]
    · intro hlimit
      have hdays : days < 9223372036854775808 := by
        have hvalue : limit = 9223372036854775807000000 := rfl
        simp only [Parts.total, secondsPerDay, nanosPerSecond] at hlimit
        omega
      have hhead : ':' ∉ ds ++ hs := by
        simp [not_mem_writesDays hds (c := ':') rfl (by decide), not_mem_pair hhs (c := ':') rfl]
      simp only [readParts?, Option.bind_eq_bind, Text.splitAtFirst?_append _ hhead,
        Text.splitAtFirst?_append _ (not_mem_pair hms (c := ':') rfl), Option.bind_some,
        splitDays?_complete hds hdays (not_mem_pair hhs rfl), hnanos,
        readPair?_eq_some_iff.mpr ⟨hhs, rfl⟩, readPair?_eq_some_iff.mpr ⟨hms, rfl⟩,
        readPair?_eq_some_iff.mpr ⟨hss, rfl⟩]
      rfl

theorem readMagnitude?_eq_some_iff {cs : List Char} {n : Nat} (hn : n ≤ limit) :
    readMagnitude? cs = some n ↔ DenotesMagnitude cs (n / 10 ^ 9) := by
  rw [readMagnitude?_eq, Option.map_eq_some_iff]
  apply Iff.intro
  · rintro ⟨p, hp, rfl⟩
    exact readParts?_sound hp
  · intro h
    obtain ⟨p, hq, hread⟩ := h.exists_parts
    have htotal : n = p.total := by
      rw [div_left_inj' (by norm_num)] at hq
      exact_mod_cast hq
    exact ⟨p, hread (htotal ▸ hn), htotal.symm⟩

/-! ## Signs -/

theorem DenotesMagnitude.head?_ne {cs : List Char} {q : ℚ} (h : DenotesMagnitude cs q) :
    cs.head? ≠ some '-' := by
  cases h with
  | @intro ds hs ms ss fs days fraction hds hhs hms hss hfs =>
    have hminus : '-' ∉ ds ++ hs := by
      simp [not_mem_writesDays hds (c := '-') rfl (by decide), not_mem_pair hhs (c := '-') rfl]
    have hne : ds ++ hs ≠ [] := by
      intro hnil
      have hlength := hhs.1
      rw [(List.append_eq_nil_iff.mp hnil).2] at hlength
      cases hlength
    intro hhead
    rw [List.head?_append_of_ne_nil _ hne] at hhead
    exact hminus (List.mem_of_mem_head? hhead)

theorem denotes_minus_iff {cs : List Char} {q : ℚ} :
    Denotes ('-' :: cs) q ↔ DenotesMagnitude cs (-q) := by
  apply Iff.intro
  · intro h
    cases h with
    | positive h => exact absurd rfl h.head?_ne
    | negative h => rwa [neg_neg]
  · intro h
    simpa using Denotes.negative h

theorem denotes_unsigned_iff {cs : List Char} {q : ℚ} (hcs : cs.head? ≠ some '-') :
    Denotes cs q ↔ DenotesMagnitude cs q := by
  apply Iff.intro
  · intro h
    cases h with
    | positive h => exact h
    | negative => exact absurd rfl hcs
  · exact .positive

theorem abs_seconds_le_iff {d : Duration} : |d.seconds| ≤ longest ↔ d.nanos.natAbs ≤ limit := by
  have hlimit : (limit : ℚ) = longest * 10 ^ 9 := by
    have hvalue : limit = 9223372036854775807000000 := rfl
    rw [hvalue, longest]
    norm_num
  rw [seconds, abs_div, abs_of_pos (by norm_num : (0 : ℚ) < 10 ^ 9), div_le_iff₀ (by norm_num),
    ← hlimit, ← Int.cast_abs, Int.abs_eq_natAbs]
  norm_cast

theorem seconds_inj {d e : Duration} : d.seconds = e.seconds ↔ d = e := by
  obtain ⟨nanos⟩ := d
  obtain ⟨nanos'⟩ := e
  rw [seconds, seconds, div_left_inj' (by norm_num), Int.cast_inj, mk.injEq]

theorem neg_seconds (d : Duration) : -d.seconds = (⟨-d.nanos⟩ : Duration).seconds := by
  simp [seconds, neg_div]

theorem DenotesMagnitude.exists_seconds {cs : List Char} {q : ℚ} (h : DenotesMagnitude cs q) :
    ∃ n : Nat, q = (⟨n⟩ : Duration).seconds := by
  obtain ⟨p, rfl, _⟩ := h.exists_parts
  exact ⟨p.total, rfl⟩

theorem Denotes.exists_seconds {cs : List Char} {q : ℚ} (h : Denotes cs q) :
    ∃ d : Duration, q = d.seconds := by
  cases h with
  | positive h =>
    obtain ⟨n, rfl⟩ := h.exists_seconds
    exact ⟨_, rfl⟩
  | negative h =>
    obtain ⟨n, rfl⟩ := h.exists_seconds
    exact ⟨_, neg_seconds _⟩

/-- The spans in range that a text without a sign stands for are those that are read. -/
theorem denotesMagnitude_iff {cs : List Char} {d : Duration} :
    DenotesMagnitude cs d.seconds ∧ d.nanos.natAbs ≤ limit ↔
      ∃ n ≤ limit, readMagnitude? cs = some n ∧ d = ⟨n⟩ := by
  apply Iff.intro
  · rintro ⟨h, hd⟩
    obtain ⟨n, hn⟩ := h.exists_seconds
    obtain rfl := seconds_inj.mp hn
    exact ⟨n, hd, (readMagnitude?_eq_some_iff hd).mpr h, rfl⟩
  · rintro ⟨n, hn, hread, rfl⟩
    exact ⟨(readMagnitude?_eq_some_iff hn).mp hread, hn⟩

theorem signed_eq_ok_iff (sign : Nat → Int) {magnitude : Option Nat} {d : Duration} :
    (match magnitude with
      | none => (.error .invalidDuration : Except DecodeError Duration)
      | some n => if limit < n then .error .durationOutOfRange else .ok ⟨sign n⟩) = .ok d ↔
      ∃ n ≤ limit, magnitude = some n ∧ d = ⟨sign n⟩ := by
  cases magnitude with
  | none => simp
  | some n =>
    by_cases hn : limit < n
    · simp [hn, hn.not_ge]
    · simp [hn, Nat.le_of_not_lt hn, eq_comm (a := d)]

theorem read_minus_eq_ok_iff {cs : List Char} {d : Duration} :
    read ('-' :: cs) = .ok d ↔ ∃ n ≤ limit, readMagnitude? cs = some n ∧ d = ⟨-n⟩ :=
  signed_eq_ok_iff fun n => -n

theorem read_unsigned_eq_ok_iff {cs : List Char} {d : Duration} (hcs : cs.head? ≠ some '-') :
    read cs = .ok d ↔ ∃ n ≤ limit, readMagnitude? cs = some n ∧ d = ⟨n⟩ := by
  rw [read_unsigned hcs]
  exact signed_eq_ok_iff fun n => n

theorem read_eq_ok_iff {cs : List Char} {d : Duration} :
    read cs = .ok d ↔ Denotes cs d.seconds ∧ |d.seconds| ≤ longest := by
  rw [abs_seconds_le_iff]
  by_cases hcs : cs.head? = some '-'
  · obtain ⟨rest, rfl⟩ := List.head?_eq_some_iff.mp hcs
    have hneg (n : Nat) : d = ⟨-n⟩ ↔ (⟨-d.nanos⟩ : Duration) = ⟨n⟩ := by
      obtain ⟨nanos⟩ := d
      simp only [mk.injEq]
      omega
    rw [read_minus_eq_ok_iff, denotes_minus_iff, neg_seconds, ← Int.natAbs_neg,
      denotesMagnitude_iff (d := ⟨-d.nanos⟩)]
    simp only [hneg]
  · rw [read_unsigned_eq_ok_iff hcs, denotes_unsigned_iff hcs, denotesMagnitude_iff]

/-- A text is read as a span if and only if it has the form of one and stands for a number of
seconds in range, and then the span is exactly as long. Every other text is an error, and no
number on the way is too great for its word. -/
theorem read_exact (cs : List Char) :
    (∀ d, read cs = .ok d ↔ Denotes cs d.seconds ∧ |d.seconds| ≤ longest) ∧
    ((∃ e, read cs = .error e) ↔ ∀ q, Denotes cs q → longest < |q|) ∧
    readWords? cs = some (read cs) := by
  refine ⟨fun _ => read_eq_ok_iff, ?_, readWords?_eq cs⟩
  apply Iff.intro
  · rintro ⟨e, he⟩ q hq
    obtain ⟨d, rfl⟩ := hq.exists_seconds
    by_contra hlong
    rw [read_eq_ok_iff.mpr ⟨hq, not_lt.mp hlong⟩] at he
    cases he
  · intro h
    cases hread : read cs with
    | error e => exact ⟨e, rfl⟩
    | ok d =>
      obtain ⟨hd, hrange⟩ := read_eq_ok_iff.mp hread
      exact absurd hrange (not_le.mpr (h _ hd))

example : read "-1.02:03:04.05".toList = .ok ⟨-93784050000000⟩ := by decide +kernel

end FilterQuery.Duration
