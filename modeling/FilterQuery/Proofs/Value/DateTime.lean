import FilterQuery.Proofs.Value.Calendar
import FilterQuery.Record.Field
import FilterQuery.Value.Codec

namespace FilterQuery.DateTime

/-! ## Reading what is written -/

theorem readFixed?_padded (width : Nat) {n : Nat} (h : n < Nat.pow 10 (width + 1))
    (rest : List Char) :
    readFixed? (width + 1) (Text.padded (width + 1) n ++ rest) = some (n, rest) := by
  have hlength := Text.length_padded h
  have htake : (Text.padded (width + 1) n ++ rest).take (width + 1) = Text.padded (width + 1) n :=
    List.take_left' hlength
  have hdrop : (Text.padded (width + 1) n ++ rest).drop (width + 1) = rest :=
    List.drop_left' hlength
  simp [readFixed?, htake, hdrop, hlength, Text.allDigits_padded]

theorem readFixed?_sign {c : Char} (hc : c.isDigit = false) (width : Nat) (rest : List Char) :
    readFixed? (width + 1) (c :: rest) = none := by
  simp [readFixed?, Text.allDigits, hc]

theorem readMark?_cons (mark : Char) (rest : List Char) :
    readMark? mark (mark :: rest) = some rest := by
  simp [readMark?]

/-- Whether a text can follow a fraction, or stand where there is none. -/
def EndsFraction (rest : List Char) : Prop :=
  ∀ c ∈ rest.head?, c.isDigit = false ∧ c ≠ '.'

theorem readFraction?_padded {width n nanos : Nat} {rest : List Char} (hwidth : width < 9)
    (h : n < Nat.pow 10 (width + 1)) (hvalue : n * Nat.pow 10 (9 - (width + 1)) = nanos)
    (hrest : EndsFraction rest) :
    readFraction? ('.' :: Text.padded (width + 1) n ++ rest) = some (nanos, rest) := by
  have hlength := Text.length_padded h
  have hdigits : ∀ c ∈ Text.padded (width + 1) n, c.isDigit = true :=
    fun c hc => Text.isDigit_of_allDigits (Text.allDigits_padded _ _) hc
  have hstop : rest.takeWhile Char.isDigit = [] ∧ rest.dropWhile Char.isDigit = rest := by
    cases rest with
    | nil => exact ⟨rfl, rfl⟩
    | cons c rest => simp [(hrest c rfl).1]
  have hne : Text.padded (width + 1) n ≠ [] := by
    apply List.ne_nil_of_length_pos
    omega
  have htake : (Text.padded (width + 1) n).take 9 = Text.padded (width + 1) n :=
    List.take_of_length_le (by omega)
  simp only [List.cons_append, readFraction?, List.takeWhile_append_of_pos hdigits,
    List.dropWhile_append_of_pos hdigits, hstop, List.append_nil, if_neg hne, nanosOf, htake,
    hlength, Text.ofDigits_padded, hvalue]

theorem readFraction?_render {nanos : Nat} {rest : List Char} (h : nanos < leap)
    (hrest : EndsFraction rest) :
    readFraction? (renderFraction nanos ++ rest) = some (nanos, rest) := by
  have hleap : leap = 1000000000 := rfl
  unfold renderFraction
  split
  · next hzero =>
    subst hzero
    unfold readFraction?
    split
    · next hpoint => exact absurd rfl (hrest '.' (congrArg List.head? hpoint)).2
    · rfl
  split
  · have hsmall : nanos / 1000000 < 1000 := by omega
    have hvalue : nanos / 1000000 * 1000000 = nanos := by omega
    exact readFraction?_padded (by decide) hsmall hvalue hrest
  split
  · have hsmall : nanos / 1000 < 1000000 := by omega
    have hvalue : nanos / 1000 * 1000 = nanos := by omega
    exact readFraction?_padded (by decide) hsmall hvalue hrest
  · exact readFraction?_padded (by decide) h (Nat.mul_one nanos) hrest

def rounded (offset : Int) : Int :=
  let seconds : Int := ((offset.natAbs + 30) / 60 * 60 : Nat)
  if offset < 0 then -seconds else seconds

theorem readOffset?_signed (negative : Bool) {hours minutes : Nat} (hhours : hours < 100)
    (hminutes : minutes < 100) :
    readOffset? ((if negative then '-' else '+') :: (Text.padded 2 hours ++
      ':' :: Text.padded 2 minutes)) = (offsetOf? negative hours minutes).map (·, []) := by
  have hread : readFixed? 2 (Text.padded 2 minutes) = some (minutes, []) := by
    simpa using readFixed?_padded 1 hminutes []
  have hsign (cs : List Char) : readOffset? ((if negative then '-' else '+') :: cs) =
      (readFixed? 2 cs).bind fun r => (readMark? ':' r.2).bind fun cs =>
        (readFixed? 2 cs).bind fun q =>
          (offsetOf? negative r.1 q.1).bind fun offset => some (offset, q.2) := by
    cases negative <;> rfl
  simp only [hsign, readFixed?_padded 1 hhours, readMark?_cons, hread, Option.bind_some]
  cases offsetOf? negative hours minutes <;> rfl

theorem offsetOf?_rounded {offset : Int} (h : offset.natAbs < 86400) :
    offsetOf? (decide (offset < 0)) ((offset.natAbs + 30) / 60 / 60)
        ((offset.natAbs + 30) / 60 % 60) =
      if (rounded offset).natAbs < 86400 then some (rounded offset) else none := by
  have hminutes : (offset.natAbs + 30) / 60 % 60 < 60 := Nat.mod_lt _ (by decide)
  have hseconds : (offset.natAbs + 30) / 60 / 60 * 3600 + (offset.natAbs + 30) / 60 % 60 * 60 =
      (offset.natAbs + 30) / 60 * 60 := by omega
  have hhours : (offset.natAbs + 30) / 60 / 60 < 24 ↔ (rounded offset).natAbs < 86400 := by
    unfold rounded
    dsimp only
    split <;> omega
  simp only [offsetOf?, hminutes, hseconds, hhours, decide_true, Bool.true_and, decide_eq_true_eq]
  rfl

theorem readOffset?_render {offset : Int} (h : offset.natAbs < 86400) :
    readOffset? (renderOffset offset) =
      if (rounded offset).natAbs < 86400 then some (rounded offset, []) else none := by
  unfold renderOffset
  split
  · next hzero =>
    subst hzero
    rfl
  · have hhours : (offset.natAbs + 30) / 60 / 60 < 100 := by omega
    have hminutes : (offset.natAbs + 30) / 60 % 60 < 100 := by omega
    have hread := readOffset?_signed (decide (offset < 0)) hhours hminutes
    simp only [decide_eq_true_eq] at hread
    simp only [List.cons_append]
    rw [hread, offsetOf?_rounded h]
    split <;> rfl

theorem endsFraction_renderOffset (offset : Int) : EndsFraction (renderOffset offset) := by
  intro c hc
  unfold renderOffset at hc
  split at hc
  · cases hc
    decide
  · simp only [List.cons_append, List.head?_cons, Option.mem_some_iff] at hc
    split at hc <;> cases hc <;> decide

theorem valid_date (t : DateTime) : t.date.Valid :=
  Date.valid_ofDays _

theorem clock_lt (t : DateTime) :
    t.clock.hour < 24 ∧ t.clock.minute < 60 ∧ t.clock.second ≤ 60 := by
  simp only [clock]
  split <;> omega

/-- The moment that the text of a date/time stands for: what its clock shows, at the offset
rounded to minutes. -/
def shown (t : DateTime) : DateTime :=
  ofClock t.date t.clock (t.nanos % leap) (rounded t.offset)

theorem read?_of_parts {cs cs₁ cs₂ cs₃ cs₄ cs₅ cs₆ cs₇ : List Char}
    {year month day hour minute second nanos : Nat}
    (hyear : readFixed? 4 cs = some (year, '-' :: cs₁))
    (hmonth : readFixed? 2 cs₁ = some (month, '-' :: cs₂))
    (hday : readFixed? 2 cs₂ = some (day, 'T' :: cs₃))
    (hhour : readFixed? 2 cs₃ = some (hour, ':' :: cs₄))
    (hminute : readFixed? 2 cs₄ = some (minute, ':' :: cs₅))
    (hsecond : readFixed? 2 cs₅ = some (second, cs₆))
    (hnanos : readFraction? cs₆ = some (nanos, cs₇)) :
    read? cs = (readOffset? cs₇).bind fun (offset, cs) =>
      if cs = [] then assemble? ⟨year, month, day⟩ ⟨hour, minute, second⟩ nanos offset
      else none := by
  rw [read?, hyear]
  change (readFixed? 2 cs₁).bind _ = _
  rw [hmonth]
  change (readFixed? 2 cs₂).bind _ = _
  rw [hday]
  change (readFixed? 2 cs₃).bind _ = _
  rw [hhour]
  change (readFixed? 2 cs₄).bind _ = _
  rw [hminute]
  change (readFixed? 2 cs₅).bind _ = _
  rw [hsecond]
  change (readFraction? cs₆).bind _ = _
  rw [hnanos]
  rfl

section

variable {t : DateTime}

theorem read?_render (hyear : 0 ≤ t.date.year ∧ t.date.year ≤ 9999)
    (hoffset : t.offset.natAbs < 86400) :
    read? t.render = if (rounded t.offset).natAbs < 86400 then some t.shown else none := by
  obtain ⟨hmonth, hmonth', hday, hday'⟩ := t.valid_date
  obtain ⟨hhour, hminute, hsecond⟩ := t.clock_lt
  have hdays := Date.daysInMonth_le t.date.year t.date.month
  have hyearText : renderYear t.date.year = Text.padded 4 t.date.year.toNat := by
    simp [renderYear, hyear]
  have hyearDigits : t.date.year.toNat < Nat.pow 10 (3 + 1) := by
    show t.date.year.toNat < 10000
    omega
  have htwo {n : Nat} (h : n ≤ 60) (rest : List Char) :
      readFixed? 2 (Text.padded 2 n ++ rest) = some (n, rest) :=
    readFixed?_padded 1 (Nat.lt_of_le_of_lt h (by decide)) rest
  have hnanos : t.nanos % leap < leap := Nat.mod_lt _ (by decide)
  have hread := read?_of_parts (readFixed?_padded 3 hyearDigits _)
    (htwo (by omega : t.date.month ≤ 60) _) (htwo (by omega : t.date.day ≤ 60) _)
    (htwo (by omega : t.clock.hour ≤ 60) _) (htwo (by omega : t.clock.minute ≤ 60) _)
    (htwo hsecond _) (readFraction?_render hnanos (endsFraction_renderOffset t.offset))
  simp only [render, hyearText, List.append_assoc, List.cons_append]
  rw [hread, readOffset?_render hoffset]
  split
  · have hdate : (⟨t.date.year.toNat, t.date.month, t.date.day⟩ : Date) = t.date := by
      rw [Int.toNat_of_nonneg hyear.1]
    simp only [Option.bind_some, reduceIte, hdate]
    exact if_pos ⟨t.valid_date, hhour, hminute, hsecond⟩
  · rfl

theorem read?_render_eq_none (hyear : ¬ (0 ≤ t.date.year ∧ t.date.year ≤ 9999)) :
    read? t.render = none := by
  have hyearText : ∃ c cs, renderYear t.date.year = c :: cs ∧ c.isDigit = false := by
    simp only [renderYear, Bool.and_eq_true, decide_eq_true_eq, if_neg hyear]
    split
    · exact ⟨'-', _, rfl, by decide⟩
    · exact ⟨'+', _, rfl, by decide⟩
  obtain ⟨c, cs, hc, hdigit⟩ := hyearText
  simp only [read?, render, hc, List.cons_append, readFixed?_sign hdigit]
  rfl

end

/-! ## What the text stands for -/

theorem rounded_eq_iff {offset : Int} : rounded offset = offset ↔ offset % 60 = 0 := by
  unfold rounded
  dsimp only
  split <;> omega

/-- Whether a text can show a moment: the offset is one of whole minutes, and a leap second ends
its minute. -/
structure Showable (t : DateTime) : Prop where
  wholeMinutes : t.offset % 60 = 0
  leapSecond : leap ≤ t.nanos → t.seconds % 60 = 59

section

variable {t : DateTime}

theorem toDays_date : t.date.toDays = (t.seconds + t.offset) / 86400 :=
  Date.toDays_ofDays _

theorem shown_of_not_leap (h : t.nanos < leap) :
    t.shown = ⟨t.seconds + t.offset - rounded t.offset, t.nanos, rounded t.offset⟩ := by
  have hsecond : t.clock.second ≠ 60 := by
    simp only [clock, if_neg (Nat.not_le.mpr h)]
    omega
  simp only [shown, ofClock, if_neg hsecond, toDays_date, Nat.mod_eq_of_lt h, mk.injEq, and_true]
  simp only [clock, if_neg (Nat.not_le.mpr h)]
  omega

/-- A leap second that ends a minute on the clock is shown as second 60. -/
theorem shown_of_leap (hleap : leap ≤ t.nanos) (hnanos : t.nanos < 2 * leap)
    (hlast : (t.seconds + t.offset) % 60 = 59) :
    t.shown = ⟨t.seconds + t.offset - rounded t.offset, t.nanos, rounded t.offset⟩ := by
  have hclock : t.clock.second = 60 := by
    simp only [clock, if_pos hleap]
    omega
  have hfraction : leap + t.nanos % leap = t.nanos := by
    rw [Nat.mod_eq_sub_mod hleap, Nat.mod_eq_of_lt (by omega)]
    omega
  simp only [shown, ofClock, hclock, reduceIte, toDays_date, hfraction, mk.injEq, and_true]
  simp only [clock]
  omega

/-- Any other leap second is shown as the second after it. -/
theorem nanos_shown_of_leap (hleap : leap ≤ t.nanos) (hlast : (t.seconds + t.offset) % 60 ≠ 59) :
    t.shown.nanos < leap := by
  have hsecond : t.clock.second ≠ 60 := by
    simp only [clock, if_pos hleap]
    omega
  simp only [shown, ofClock, if_neg hsecond]
  exact Nat.mod_lt _ (by decide)

theorem Showable.shown_eq (h : t.Showable) (hnanos : t.nanos < 2 * leap) : t.shown = t := by
  have hrounded := rounded_eq_iff.mpr h.wholeMinutes
  have hoffset := h.wholeMinutes
  have heq : t.shown = ⟨t.seconds + t.offset - rounded t.offset, t.nanos, rounded t.offset⟩ := by
    by_cases hleap : leap ≤ t.nanos
    · have hlast := h.leapSecond hleap
      exact shown_of_leap hleap hnanos (by omega)
    · exact shown_of_not_leap (Nat.not_le.mp hleap)
  rw [heq, hrounded, Int.add_sub_cancel]

end

end FilterQuery.DateTime

namespace FilterQuery

variable {t : DateTime}

theorem Kind.decode_encode_dateTime (h : Kind.dateTime.Holds (.dateTime t))
    (hyear : 0 ≤ t.date.year ∧ t.date.year ≤ 9999) :
    Kind.dateTime.decode (Scalar.dateTime t).encode =
      if (DateTime.rounded t.offset).natAbs < 86400 then .ok (.dateTime t.shown)
      else .error .invalidDateTime := by
  simp only [Kind.decode, Scalar.encode, String.toList_ofList, DateTime.read?_render hyear h.2]
  by_cases hoffset : (DateTime.rounded t.offset).natAbs < 86400
  · rw [if_pos hoffset, if_pos hoffset]
  · rw [if_neg hoffset, if_neg hoffset]

/-- A moment that a text can show is read back from its own text, offset and leap second included,
if its clock shows a year of four digits. Else its text is rejected. -/
theorem Kind.decode_encode_showable (h : Kind.dateTime.Holds (.dateTime t)) (ht : t.Showable) :
    Kind.dateTime.decode (Scalar.dateTime t).encode =
      if 0 ≤ t.date.year ∧ t.date.year ≤ 9999 then .ok (.dateTime t)
      else .error .invalidDateTime := by
  split
  · next hyear =>
    rw [Kind.decode_encode_dateTime h hyear, ht.shown_eq h.1,
      DateTime.rounded_eq_iff.mpr ht.wholeMinutes]
    exact if_pos h.2
  · next hyear =>
    simp only [Kind.decode, Scalar.encode, String.toList_ofList,
      DateTime.read?_render_eq_none hyear]

/-- The leap second at the end of 2016, on a clock that already shows 2017. -/
theorem Kind.decode_encode_showable_leapSecond :
    let t : DateTime := ⟨1483228799, 1500000000, 20700⟩
    let u : DateTime := ⟨-62167219201, 0, 0⟩
    Kind.dateTime.Holds (.dateTime t) ∧ t.Showable ∧
    Kind.dateTime.decode (Scalar.dateTime t).encode = .ok (.dateTime t) ∧
    Kind.dateTime.Holds (.dateTime u) ∧ u.Showable ∧
    Kind.dateTime.decode (Scalar.dateTime u).encode = .error .invalidDateTime := by
  intro t u
  have ht : Kind.dateTime.Holds (.dateTime t) := by decide
  have hu : Kind.dateTime.Holds (.dateTime u) := by decide
  have htshow : t.Showable := ⟨by decide, fun _ => by decide⟩
  have hushow : u.Showable := ⟨by decide, fun h => absurd h (by decide)⟩
  have htread := Kind.decode_encode_showable ht htshow
  have huread := Kind.decode_encode_showable hu hushow
  rw [if_pos (by decide)] at htread
  rw [if_neg (by decide)] at huread
  exact ⟨ht, htshow, htread, hu, hushow, huread⟩

end FilterQuery
