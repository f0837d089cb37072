import FilterQuery.Proofs.Value.Decoding
import FilterQuery.Proofs.Value.Duration

namespace FilterQuery

namespace IntegerType

def fit? (t : IntegerType) (n : Int) : Option Int :=
  if t.Holds n then some n else none

def word : IntegerType := ⟨true, .w64⟩

def shortWord : IntegerType := ⟨true, .w32⟩

def unsignedShortWord : IntegerType := ⟨false, .w32⟩

theorem fit?_of_holds {t : IntegerType} {n : Int} (h : t.Holds n) : t.fit? n = some n :=
  if_pos h

theorem fit?_of_not_holds {t : IntegerType} {n : Int} (h : ¬ t.Holds n) : t.fit? n = none :=
  if_neg h

theorem fit?_natCast {t : IntegerType} {n : Nat} (h : n ≤ t.height) :
    t.fit? n = some (n : Int) := by
  apply fit?_of_holds
  exact ⟨by omega, by omega⟩

theorem fit?_tdiv {t : IntegerType} {m n : Nat} (h : m / n ≤ t.height) :
    t.fit? ((m : Int).tdiv n) = some ((m / n : Nat) : Int) := by
  rw [← Int.ofNat_tdiv]
  exact fit?_natCast h

theorem fit?_tmod {t : IntegerType} {m n : Nat} (h : m % n ≤ t.height) :
    t.fit? ((m : Int).tmod n) = some ((m % n : Nat) : Int) := by
  rw [← Int.ofNat_tmod]
  exact fit?_natCast h

theorem holds_word {n : Int} :
    word.Holds n ↔ -9223372036854775808 ≤ n ∧ n ≤ 9223372036854775807 :=
  Iff.rfl

end IntegerType

namespace Duration

open IntegerType

def ofNanos? (n : Int) : Option Duration :=
  if n.natAbs ≤ limit then some ⟨n⟩ else none

theorem ofNanos?_of_le {n : Int} (h : n.natAbs ≤ limit) : ofNanos? n = some ⟨n⟩ :=
  if_pos h

/-- A span of whole seconds and nanoseconds with a sign. It is an error that it is too long, and
there is no result if it cannot be negated. -/
def signedWords? (negative : Bool) (total nanos : Int) : Option (Except DecodeError Duration) :=
  match ofNanos? (total * nanosPerSecond + nanos) with
  | none => some (.error .durationOutOfRange)
  | some magnitude =>
    if negative then (ofNanos? (-magnitude.nanos)).map .ok else some (.ok magnitude)

/-- Writes whole seconds with every number on the way held in a word; there is no result if one of
them does not fit. -/
def renderSecondsWords? (total : Int) : Option (List Char) := do
  let days ← word.fit? (total.tdiv secondsPerDay)
  let rest ← word.fit? (total.tmod secondsPerDay)
  let hours ← word.fit? (rest.tdiv 3600)
  let hourRest ← word.fit? (rest.tmod 3600)
  let minutes ← word.fit? (hourRest.tdiv 60)
  let seconds ← word.fit? (rest.tmod 60)
  return (if 0 < days then Integer.render days ++ ['.'] else []) ++
    Text.padded 2 hours.toNat ++ ':' :: Text.padded 2 minutes.toNat ++
    ':' :: Text.padded 2 seconds.toNat

def renderWords? (d : Duration) : Option (List Char) := do
  let magnitude ← ofNanos? d.nanos.natAbs
  let total ← word.fit? (magnitude.nanos.tdiv nanosPerSecond)
  let nanos ← shortWord.fit? (magnitude.nanos.tmod nanosPerSecond)
  let text ← renderSecondsWords? total
  return (if d.nanos < 0 then ['-'] else []) ++ text ++
    if 0 < nanos then '.' :: Text.dropTrailingZeros (Text.padded 9 nanos.toNat) else []

/-- The numbers that the text of a span consists of. -/
structure Parts where
  days : Nat
  hours : Nat
  minutes : Nat
  seconds : Nat
  nanos : Nat

/-- The number of days in front of the hours, which is zero if it is not written. -/
def splitDays? (head : List Char) : Option (Nat × List Char) :=
  match Text.splitAtFirst? '.' head with
  | some (days, hours) => (readDays? days).map (·, hours)
  | none => some (0, head)

def splitNanos? (tail : List Char) : Option (List Char × Nat) :=
  match Text.splitAtFirst? '.' tail with
  | some (seconds, fraction) => (readNanos? fraction).map (seconds, ·)
  | none => some (tail, 0)

def readParts? (cs : List Char) : Option Parts := do
  let (head, rest) ← Text.splitAtFirst? ':' cs
  let (middle, tail) ← Text.splitAtFirst? ':' rest
  let (days, hours) ← splitDays? head
  let (seconds, nanos) ← splitNanos? tail
  let hours ← readPair? 24 hours
  let minutes ← readPair? 60 middle
  let seconds ← readPair? 60 seconds
  return ⟨days, hours, minutes, seconds, nanos⟩

namespace Parts

def clock (p : Parts) : Nat := p.hours * 3600 + p.minutes * 60 + p.seconds

/-- The whole span in nanoseconds. -/
def total (p : Parts) : Nat :=
  (p.days * secondsPerDay + p.hours * 3600 + p.minutes * 60 + p.seconds) * nanosPerSecond + p.nanos

/-- Whether the numbers are within the bounds that a text keeps to. -/
structure Bounded (p : Parts) : Prop where
  days : p.days < 9223372036854775808
  hours : p.hours < 24
  minutes : p.minutes < 60
  seconds : p.seconds < 60
  nanos : p.nanos < 1000000000

def clockWords? (p : Parts) : Option Int := do
  let hours ← word.fit? p.hours
  let minutes ← word.fit? p.minutes
  let seconds ← word.fit? p.seconds
  let hourSeconds ← word.fit? (hours * 3600)
  let minuteSeconds ← word.fit? (minutes * 60)
  let sum ← word.fit? (hourSeconds + minuteSeconds)
  word.fit? (sum + seconds)

/-- The span of some numbers with every number on the way held in a word; there is no result if
one of them does not fit. It is an error only that the span is too long. -/
def spanWords? (p : Parts) (negative : Bool) : Option (Except DecodeError Duration) := do
  let days ← word.fit? p.days
  let nanos ← unsignedShortWord.fit? p.nanos
  match word.fit? (days * secondsPerDay) with
  | none => return .error .durationOutOfRange
  | some daySeconds =>
    let clock ← p.clockWords?
    match word.fit? (daySeconds + clock) with
    | none => return .error .durationOutOfRange
    | some total => signedWords? negative total nanos

end Parts

def readUnsignedWords? (negative : Bool) (cs : List Char) : Option (Except DecodeError Duration) :=
  match readParts? cs with
  | none => some (.error .invalidDuration)
  | some p => p.spanWords? negative

def readWords? : List Char → Option (Except DecodeError Duration)
  | '-' :: cs => readUnsignedWords? true cs
  | cs => readUnsignedWords? false cs

/-! ## Nothing is lost on the way -/

theorem render_natCast (n : Nat) : Integer.render n = Text.digits n := by
  rw [Integer.render, if_neg (by omega), Int.natAbs_natCast]

theorem renderSecondsWords?_eq {n : Nat} (h : n ≤ word.height) :
    renderSecondsWords? n = some (renderSeconds n) := by
  have hdays := @fit?_tdiv word n secondsPerDay (Nat.le_trans (Nat.div_le_self _ _) h)
  have hrest := @fit?_tmod word n secondsPerDay (Nat.le_trans (Nat.mod_le _ _) h)
  have hle : n % secondsPerDay ≤ word.height := Nat.le_trans (Nat.mod_le _ _) h
  simp only [renderSecondsWords?, renderSeconds, hdays, hrest, Option.bind_eq_bind,
    Option.bind_some]
  generalize n / secondsPerDay = days
  generalize n % secondsPerDay = rest at hle
  have hhours := @fit?_tdiv word rest 3600 (Nat.le_trans (Nat.div_le_self _ _) hle)
  have hhourRest := @fit?_tmod word rest 3600 (Nat.le_trans (Nat.mod_le _ _) hle)
  have hminutes := @fit?_tdiv word (rest % 3600) 60
    (Nat.le_trans (Nat.div_le_self _ _) (Nat.le_trans (Nat.mod_le _ _) hle))
  have hseconds := @fit?_tmod word rest 60 (Nat.le_trans (Nat.mod_le _ _) hle)
  simp only [Int.cast_ofNat_Int] at hhours hhourRest hminutes hseconds
  simp only [hhours, hhourRest, hminutes, hseconds, Option.bind_some, Int.toNat_natCast,
    render_natCast, Int.natCast_pos, Nat.pos_iff_ne_zero, ite_not]
  rfl

theorem renderWords?_eq {d : Duration} (h : d.nanos.natAbs ≤ limit) :
    d.renderWords? = some d.render := by
  have hlimit : limit = 9223372036854775807000000 := rfl
  have hseconds : d.nanos.natAbs / nanosPerSecond ≤ word.height := by
    have hword : word.height = 9223372036854775807 := rfl
    simp only [nanosPerSecond]
    omega
  have hnanos : d.nanos.natAbs % nanosPerSecond ≤ shortWord.height := by
    have hword : shortWord.height = 2147483647 := rfl
    simp only [nanosPerSecond]
    omega
  have hmagnitude : ofNanos? d.nanos.natAbs = some ⟨d.nanos.natAbs⟩ := ofNanos?_of_le h
  simp only [renderWords?, render, renderFraction, hmagnitude, fit?_tdiv hseconds, fit?_tmod hnanos,
    renderSecondsWords?_eq hseconds, Option.bind_eq_bind, Option.bind_some, Int.toNat_natCast,
    Int.natCast_pos, Nat.pos_iff_ne_zero, ite_not]
  rfl

theorem readMagnitude?_eq (cs : List Char) :
    readMagnitude? cs = (readParts? cs).map Parts.total := by
  unfold readMagnitude? readParts? splitDays? splitNanos?
  simp only [Option.bind_eq_bind, Option.map_bind, Function.comp_def]
  rcases Text.splitAtFirst? ':' cs with _ | ⟨head, rest⟩
  · rfl
  simp only [Option.bind_some]
  rcases Text.splitAtFirst? ':' rest with _ | ⟨middle, tail⟩
  · rfl
  simp only [Option.bind_some]
  rcases Text.splitAtFirst? '.' head with _ | ⟨days, hours⟩ <;>
    rcases Text.splitAtFirst? '.' tail with _ | ⟨seconds, fraction⟩ <;>
    rfl

theorem signedWords?_eq {negative : Bool} {total nanos : Int} {n : Nat}
    (h : total * nanosPerSecond + nanos = n) :
    signedWords? negative total nanos =
      some (if limit < n then .error .durationOutOfRange
        else .ok ⟨if negative then -n else n⟩) := by
  rw [signedWords?, h]
  by_cases hlong : limit < n
  · have hnone : ofNanos? n = none := if_neg (by omega)
    rw [hnone, if_pos hlong]
  · have hmagnitude : ofNanos? n = some ⟨n⟩ := ofNanos?_of_le (by omega)
    have hnegated : ofNanos? (-n) = some ⟨-n⟩ := ofNanos?_of_le (by omega)
    rw [hmagnitude, if_neg hlong]
    cases negative with
    | false => rfl
    | true => simp only [hnegated, if_true, Option.map_some]

theorem readPair?_lt {bound n : Nat} {cs : List Char} (h : readPair? bound cs = some n) :
    n < bound := by
  obtain ⟨⟨-, -, hlt⟩, rfl⟩ := readPair?_eq_some_iff.mp h
  exact hlt

theorem readDays?_lt {n : Nat} {cs : List Char} (h : readDays? cs = some n) :
    n < 9223372036854775808 := by
  obtain ⟨-, -, hlt, rfl⟩ := readDays?_eq_some_iff.mp h
  exact hlt

theorem readNanos?_lt {n : Nat} {cs : List Char} (h : readNanos? cs = some n) :
    n < 1000000000 := by
  obtain ⟨-, hlength, hdigits, rfl⟩ := readNanos?_eq_some_iff.mp h
  calc
    Text.ofDigits cs * Nat.pow 10 (9 - cs.length)
      < Nat.pow 10 cs.length * Nat.pow 10 (9 - cs.length) :=
        Nat.mul_lt_mul_of_pos_right (Text.ofDigits_lt hdigits) (Nat.pow_pos (by decide))
    _ = Nat.pow 10 (cs.length + (9 - cs.length)) := (Nat.pow_add 10 _ _).symm
    _ = Nat.pow 10 9 := by rw [Nat.add_sub_cancel' hlength]

theorem splitDays?_lt {n : Nat} {head hours : List Char} (h : splitDays? head = some (n, hours)) :
    n < 9223372036854775808 := by
  rw [splitDays?] at h
  split at h
  · obtain ⟨days, hdays, h⟩ := Option.map_eq_some_iff.mp h
    cases h
    exact readDays?_lt hdays
  · cases h
    exact (by decide : 0 < 9223372036854775808)

theorem splitNanos?_lt {n : Nat} {tail seconds : List Char}
    (h : splitNanos? tail = some (seconds, n)) : n < 1000000000 := by
  rw [splitNanos?] at h
  split at h
  · obtain ⟨nanos, hnanos, h⟩ := Option.map_eq_some_iff.mp h
    cases h
    exact readNanos?_lt hnanos
  · cases h
    exact (by decide : 0 < 1000000000)

theorem bounded_of_readParts? {cs : List Char} {p : Parts} (h : readParts? cs = some p) :
    p.Bounded := by
  simp only [readParts?, Option.bind_eq_bind, Option.bind_eq_some_iff, Prod.exists] at h
  obtain ⟨head, rest, -, middle, tail, -, days, hourText, hdays, secondText, nanos, hnanos, hours,
    hhours, minutes, hminutes, seconds, hseconds, h⟩ := h
  cases h
  exact ⟨splitDays?_lt hdays, readPair?_lt hhours, readPair?_lt hminutes, readPair?_lt hseconds,
    splitNanos?_lt hnanos⟩

namespace Parts.Bounded

variable {p : Parts}

theorem clock_lt (hp : p.Bounded) : p.clock < 86400 := by
  obtain ⟨-, hhours, hminutes, hseconds, -⟩ := hp
  simp only [clock]
  omega

theorem clockWords?_eq (hp : p.Bounded) : p.clockWords? = some (p.clock : Int) := by
  obtain ⟨-, hhours, hminutes, hseconds, -⟩ := hp
  have hfit {n : Int} (h : 0 ≤ n ∧ n < 86400) : word.fit? n = some n :=
    fit?_of_holds (holds_word.mpr ⟨by omega, by omega⟩)
  simp only [clockWords?, Option.bind_eq_bind]
  rw [hfit (by omega), Option.bind_some, hfit (by omega), Option.bind_some, hfit (by omega),
    Option.bind_some, hfit (by omega), Option.bind_some, hfit (by omega), Option.bind_some,
    hfit (by omega), Option.bind_some, hfit (by omega)]
  rfl

/-- Only the days, and with them the whole span, can be too great. -/
theorem spanWords?_eq (hp : p.Bounded) (negative : Bool) :
    p.spanWords? negative =
      some (if limit < p.total then .error .durationOutOfRange
        else .ok ⟨if negative then -p.total else p.total⟩) := by
  have hlimit : limit = 9223372036854775807000000 := rfl
  have htotal : p.total = (p.days * 86400 + p.clock) * 1000000000 + p.nanos := by
    simp only [total, clock, secondsPerDay, nanosPerSecond]
    omega
  have hclock := hp.clock_lt
  have hdays : word.fit? p.days = some (p.days : Int) :=
    fit?_of_holds (holds_word.mpr ⟨by omega, by have := hp.days; omega⟩)
  have hnanos : unsignedShortWord.fit? p.nanos = some (p.nanos : Int) := by
    have hheight : unsignedShortWord.height = 4294967295 := rfl
    exact fit?_natCast (by have := hp.nanos; omega)
  simp only [spanWords?, hdays, hnanos, hp.clockWords?_eq, Option.bind_eq_bind, Option.bind_some]
  have hspan : (p.days * secondsPerDay + p.clock : Int) * nanosPerSecond + p.nanos = p.total := by
    simp only [htotal, secondsPerDay, nanosPerSecond]
    omega
  by_cases hday : word.Holds (p.days * secondsPerDay)
  · rw [fit?_of_holds hday]
    by_cases hsum : word.Holds (p.days * secondsPerDay + p.clock)
    · simp only [fit?_of_holds hsum]
      exact signedWords?_eq hspan
    · have hlong : limit < p.total := by
        simp only [holds_word, secondsPerDay] at hsum
        omega
      simp only [fit?_of_not_holds hsum, if_pos hlong]
      rfl
  · have hlong : limit < p.total := by
      simp only [holds_word, secondsPerDay] at hday
      omega
    rw [fit?_of_not_holds hday, if_pos hlong]
    rfl

end Parts.Bounded

theorem readUnsignedWords?_minus (cs : List Char) :
    readUnsignedWords? true cs = some (read ('-' :: cs)) := by
  rw [readUnsignedWords?, read_minus, readMagnitude?_eq]
  cases hparts : readParts? cs with
  | none => rfl
  | some p =>
    have hspan := (bounded_of_readParts? hparts).spanWords?_eq true
    rwa [if_pos rfl] at hspan

theorem readUnsignedWords?_unsigned {cs : List Char} (h : cs.head? ≠ some '-') :
    readUnsignedWords? false cs = some (read cs) := by
  rw [readUnsignedWords?, read_unsigned h, readMagnitude?_eq]
  cases hparts : readParts? cs with
  | none => rfl
  | some p =>
    have hspan := (bounded_of_readParts? hparts).spanWords?_eq false
    rwa [if_neg Bool.false_ne_true] at hspan

theorem readWords?_eq (cs : List Char) : readWords? cs = some (read cs) := by
  rw [readWords?.eq_def]
  split
  · exact readUnsignedWords?_minus _
  · next hminus =>
    apply readUnsignedWords?_unsigned
    intro h
    obtain ⟨rest, hrest⟩ := List.head?_eq_some_iff.mp h
    exact hminus rest hrest

/-- What is written for a span is read back as that span, and every number on the way to and fro
fits its word. -/
theorem words_round_trip {d : Duration} (h : d.nanos.natAbs ≤ limit) :
    read d.render = .ok d ∧ d.renderWords? = some d.render ∧
      readWords? d.render = some (.ok d) := by
  have hread := read_render h
  exact ⟨hread, renderWords?_eq h, by rw [readWords?_eq, hread]⟩

/-- The longest negative span, in which the seconds are rounded down. -/
theorem words_round_trip_least :
    let d : Duration := ⟨-9223372036854776 * 1000000000 + 193000000⟩
    d.nanos.natAbs ≤ limit ∧ d.render = "-106751991167.07:12:55.807".toList ∧
      read d.render = .ok d ∧ d.renderWords? = some d.render ∧
      readWords? d.render = some (.ok d) := by
  intro d
  have h : d.nanos.natAbs ≤ limit := by decide
  exact ⟨h, by decide +kernel, words_round_trip h⟩

end Duration

end FilterQuery
