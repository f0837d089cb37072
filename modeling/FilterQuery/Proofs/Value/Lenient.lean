import FilterQuery.Proofs.Value.DateTime
import FilterQuery.Proofs.Value.Decoding
import FilterQuery.Value.DateTime.Lenient
import Mathlib.Data.List.TakeWhile

namespace FilterQuery

theorem Text.isBlank_of_isDigit {c : Char} (h : c.isDigit = true) : isBlank c = false := by
  have hrange : 48 ≤ c.toNat ∧ c.toNat ≤ 57 := Char.isDigit_iff_toNat.mp h
  simp only [isBlank, Bool.or_eq_false_iff, Bool.and_eq_false_iff, decide_eq_false_iff_not,
    beq_eq_false_iff_ne]
  omega

theorem Text.trimStart_cons {c : Char} (h : isBlank c = false) (cs : List Char) :
    trimStart (c :: cs) = c :: cs :=
  List.dropWhile_cons_of_neg (by simp [h])

namespace DateTime

theorem padded_cons (width n : Nat) :
    ∃ c cs, Text.padded width n = c :: cs ∧ c.isDigit = true := by
  have hne : Text.padded width n ≠ [] :=
    List.append_ne_nil_of_right_ne_nil _ (Text.digits_ne_nil n)
  obtain ⟨c, cs, hcons⟩ := List.exists_cons_of_ne_nil hne
  exact ⟨c, cs, hcons, Text.isDigit_of_allDigits (Text.allDigits_padded width n)
    (hcons ▸ List.mem_cons_self)⟩

theorem trimStart_padded (width n : Nat) (rest : List Char) :
    Text.trimStart (Text.padded width n ++ rest) = Text.padded width n ++ rest := by
  obtain ⟨c, cs, hcons, hdigit⟩ := padded_cons width n
  rw [hcons, List.cons_append, Text.trimStart_cons (Text.isBlank_of_isDigit hdigit)]

theorem readShort?_padded (width : Nat) {n : Nat} (h : n < Nat.pow 10 (width + 1))
    (rest : List Char) :
    readShort? (width + 1) (Text.padded (width + 1) n ++ rest) = some (n, rest) := by
  have hlength := Text.length_padded h
  have htake : (Text.padded (width + 1) n ++ rest).take (width + 1) = Text.padded (width + 1) n :=
    List.take_left' hlength
  have hdrop : (Text.padded (width + 1) n ++ rest).drop (Text.padded (width + 1) n).length = rest :=
    List.drop_left' rfl
  have hdigits : (Text.padded (width + 1) n).takeWhile Char.isDigit = Text.padded (width + 1) n :=
    List.takeWhile_eq_self_iff.mpr fun c hc =>
      Text.isDigit_of_allDigits (Text.allDigits_padded _ _) hc
  have hne : Text.padded (width + 1) n ≠ [] := by
    obtain ⟨c, cs, hcons, -⟩ := padded_cons (width + 1) n
    rw [hcons]
    exact List.cons_ne_nil c cs
  simp only [readShort?, trimStart_padded, htake, hdigits, hdrop, if_neg hne,
    Text.ofDigits_padded]

theorem readUnbounded?_padded (width n : Nat) {c : Char} (hc : c.isDigit = false)
    (rest : List Char) :
    readYear?.readUnbounded? (Text.padded width n ++ c :: rest) = some (n, c :: rest) := by
  have hdigits : ∀ d ∈ Text.padded width n, d.isDigit = true :=
    fun d hd => Text.isDigit_of_allDigits (Text.allDigits_padded _ _) hd
  have htake : (Text.padded width n ++ c :: rest).takeWhile Char.isDigit =
      Text.padded width n := by
    rw [List.takeWhile_append_of_pos hdigits, List.takeWhile_cons_of_neg (by simp [hc]),
      List.append_nil]
  have hdrop : (Text.padded width n ++ c :: rest).dropWhile Char.isDigit = c :: rest := by
    rw [List.dropWhile_append_of_pos hdigits, List.dropWhile_cons_of_neg (by simp [hc])]
  obtain ⟨d, ds, hcons, -⟩ := padded_cons width n
  have hne : Text.padded width n ≠ [] := by simp [hcons]
  simp only [readYear?.readUnbounded?, htake, hdrop, if_neg hne, Text.ofDigits_padded]

theorem readYear?_render (year : Int) (rest : List Char) :
    readYear? (renderYear year ++ '-' :: rest) = some (year, '-' :: rest) := by
  have hunbounded := readUnbounded?_padded 4 year.natAbs (c := '-') rfl rest
  unfold renderYear
  split
  · next hyear =>
    simp only [Bool.and_eq_true, decide_eq_true_eq] at hyear
    have hshort : year.toNat < Nat.pow 10 (3 + 1) := by
      have hpow : Nat.pow 10 (3 + 1) = 10000 := rfl
      omega
    have hread := readShort?_padded 3 hshort ('-' :: rest)
    obtain ⟨c, cs, hcons, hdigit⟩ := padded_cons 4 year.toNat
    have hminus : c ≠ '-' := Text.ne_of_isDigit hdigit rfl
    have hplus : c ≠ '+' := Text.ne_of_isDigit hdigit rfl
    have htrim : Text.trimStart (c :: (cs ++ '-' :: rest)) = c :: (cs ++ '-' :: rest) :=
      Text.trimStart_cons (Text.isBlank_of_isDigit hdigit) _
    rw [hcons, List.cons_append] at hread ⊢
    simp [readYear?, htrim, hminus, hplus, hread, hyear.1]
  · split
    · next hneg =>
      rw [List.cons_append, readYear?, Text.trimStart_cons (by decide)]
      simp only [hunbounded, Option.map_some]
      rw [Int.ofNat_natAbs_of_nonpos hneg.le, neg_neg]
    · next hpos =>
      rw [List.cons_append, readYear?, Text.trimStart_cons (by decide)]
      simp only [hunbounded, Option.map_some]
      rw [Int.natAbs_of_nonneg (Int.not_lt.mp hpos)]

theorem readLenient?_of_parts {cs cs₁ cs₂ cs₃ cs₄ cs₅ cs₆ cs₇ : List Char} {year : Int}
    {month day hour minute second nanos : Nat}
    (hyear : readYear? cs = some (year, '-' :: cs₁))
    (hmonth : readShort? 2 cs₁ = some (month, '-' :: cs₂))
    (hday : readShort? 2 cs₂ = some (day, 'T' :: cs₃))
    (hhour : readShort? 2 cs₃ = some (hour, ':' :: cs₄))
    (hminute : readShort? 2 cs₄ = some (minute, ':' :: cs₅))
    (hsecond : readShort? 2 cs₅ = some (second, cs₆))
    (hnanos : readFraction? cs₆ = some (nanos, cs₇)) :
    readLenient? cs = (readLenientOffset? (Text.trimStart cs₇)).bind fun (offset, cs) =>
      (assemble? ⟨year, month, day⟩ ⟨hour, minute, second⟩ nanos offset).bind fun t =>
        if Text.trimStart cs = [] && yearInRange year &&
            yearInRange { t with offset := 0 }.date.year then some t else none := by
  rw [readLenient?, hyear]
  change (readShort? 2 cs₁).bind _ = _
  rw [hmonth]
  change (readShort? 2 cs₂).bind _ = _
  rw [hday]
  change (readShort? 2 cs₃).bind _ = _
  rw [hhour]
  change (readShort? 2 cs₄).bind _ = _
  rw [hminute]
  change (readShort? 2 cs₅).bind _ = _
  rw [hsecond]
  change (readFraction? cs₆).bind _ = _
  rw [hnanos]
  rfl

theorem readLenient?_render {t : DateTime} (hutc : t.offset = 0) (hnanos : t.nanos < 2 * leap)
    (ht : t.Showable) (hyear : yearInRange t.date.year = true) :
    readLenient? t.render = some t := by
  obtain ⟨hmonth, hmonth', hday, hday'⟩ := t.valid_date
  obtain ⟨hhour, hminute, hsecond⟩ := t.clock_lt
  have hdays := Date.daysInMonth_le t.date.year t.date.month
  have htwo {n : Nat} (h : n ≤ 60) (rest : List Char) :
      readShort? 2 (Text.padded 2 n ++ rest) = some (n, rest) :=
    readShort?_padded 1 (Nat.lt_of_le_of_lt h (by decide)) rest
  have hfraction : t.nanos % leap < leap := Nat.mod_lt _ (by decide)
  have hread := readLenient?_of_parts (readYear?_render t.date.year _)
    (htwo (by omega : t.date.month ≤ 60) _) (htwo (by omega : t.date.day ≤ 60) _)
    (htwo (by omega : t.clock.hour ≤ 60) _) (htwo (by omega : t.clock.minute ≤ 60) _)
    (htwo hsecond _) (readFraction?_render hfraction (endsFraction_renderOffset t.offset))
  have hassemble : assemble? t.date t.clock (t.nanos % leap) 0 = some t := by
    have hshown := ht.shown_eq hnanos
    rw [shown, hutc] at hshown
    exact (if_pos ⟨t.valid_date, hhour, hminute, hsecond⟩).trans (congrArg some hshown)
  have hmoment : { t with offset := 0 } = t := by rw [← hutc]
  simp only [render, List.append_assoc, List.cons_append]
  rw [hread, hutc]
  have hoffset : readLenientOffset? (Text.trimStart (renderOffset 0)) = some (0, []) := rfl
  rw [hoffset, Option.bind_some]
  change (assemble? t.date t.clock (t.nanos % leap) 0).bind _ = _
  rw [hassemble, Option.bind_some, hmoment, hyear]
  rfl

theorem offsetOf?_wholeMinutes {negative : Bool} {hours minutes : Nat} {offset : Int}
    (h : offsetOf? negative hours minutes = some offset) : offset % 60 = 0 := by
  unfold offsetOf? at h
  split at h
  · cases h
    split <;> omega
  · cases h

theorem readLenientOffset?_wholeMinutes {cs rest : List Char} {offset : Int}
    (h : readLenientOffset? cs = some (offset, rest)) : offset % 60 = 0 := by
  unfold readLenientOffset? at h
  split at h
  · cases h
    rfl
  · split at h
    · cases h
      rfl
    · cases h
      rfl
    · simp only [Option.bind_eq_bind, Option.bind_eq_some_iff, Prod.exists] at h
      obtain ⟨_, _, _, _, _, _, _, _, _, offset', hoffset, hpure⟩ := h
      cases hpure
      exact offsetOf?_wholeMinutes hoffset

/-- A leap second is second 60 of its minute, on every clock that is ahead by whole minutes. -/
theorem showable_of_assemble? {d : Date} {c : Clock} {nanos : Nat} {offset : Int} {t : DateTime}
    (hnanos : nanos < leap) (hoffset : offset % 60 = 0)
    (h : assemble? d c nanos offset = some t) : t.Showable := by
  unfold assemble? at h
  split at h
  · cases h
    refine ⟨hoffset, ?_⟩
    simp only [ofClock]
    split <;> omega
  · cases h

theorem showable_of_readLenient? {t : DateTime} {cs : List Char} (h : readLenient? cs = some t) :
    t.Showable ∧ yearInRange { t with offset := 0 }.date.year = true := by
  iterate 11 obtain ⟨_, _, h⟩ := Option.bind_eq_some_iff.mp h
  obtain ⟨_, hnanos, h⟩ := Option.bind_eq_some_iff.mp h
  obtain ⟨_, hoffset, h⟩ := Option.bind_eq_some_iff.mp h
  obtain ⟨u, hu, h⟩ := Option.bind_eq_some_iff.mp h
  have hshowable := showable_of_assemble? (readFraction?_lt hnanos)
    (readLenientOffset?_wholeMinutes hoffset) hu
  split at h
  · next hrange =>
    cases h
    exact ⟨hshowable, (Bool.and_eq_true_iff.mp hrange).2⟩
  · cases h

end DateTime

end FilterQuery
