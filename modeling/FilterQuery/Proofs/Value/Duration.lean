import FilterQuery.Value.Duration

namespace FilterQuery.Duration

def IsPair (bound : Nat) (cs : List Char) : Prop :=
  cs.length = 2 ∧ Text.allDigits cs = true ∧ Text.ofDigits cs < bound

theorem readPair?_eq_some_iff {bound n : Nat} {cs : List Char} :
    readPair? bound cs = some n ↔ IsPair bound cs ∧ n = Text.ofDigits cs := by
  simp only [readPair?, IsPair, Option.ite_none_right_eq_some, Bool.and_eq_true,
    decide_eq_true_eq, Option.some.injEq, and_assoc, eq_comm (a := n)]

theorem readDays?_eq_some_iff {n : Nat} {cs : List Char} :
    readDays? cs = some n ↔
      cs ≠ [] ∧ Text.allDigits cs = true ∧ Text.ofDigits cs < Nat.pow 2 63 ∧
        n = Text.ofDigits cs := by
  simp only [readDays?, Option.ite_none_right_eq_some, Bool.and_eq_true, decide_eq_true_eq,
    Option.some.injEq, and_assoc, eq_comm (a := n)]

theorem readNanos?_eq_some_iff {n : Nat} {cs : List Char} :
    readNanos? cs = some n ↔
      cs ≠ [] ∧ cs.length ≤ 9 ∧ Text.allDigits cs = true ∧
        n = Text.ofDigits cs * Nat.pow 10 (9 - cs.length) := by
  simp only [readNanos?, Option.ite_none_right_eq_some, Bool.and_eq_true, decide_eq_true_eq,
    Option.some.injEq, and_assoc, eq_comm (a := n)]

theorem not_mem_padded {width n : Nat} {c : Char} (hc : c.isDigit = false) :
    c ∉ Text.padded width n := by
  intro h
  have := Text.isDigit_of_allDigits (Text.allDigits_padded width n) h
  simp [hc] at this

theorem readPair?_padded {bound n : Nat} (hb : bound ≤ 100) (h : n < bound) :
    readPair? bound (Text.padded 2 n) = some n := by
  have hlength : (Text.padded 2 n).length = 2 := Text.length_padded (show n < 100 by omega)
  simp [readPair?, hlength, Text.allDigits_padded, h]

theorem readDays?_digits {n : Nat} (h : n < Nat.pow 2 63) :
    readDays? (Text.digits n) = some n := by
  simp [readDays?, Text.digits_ne_nil, Text.allDigits_digits, h]

theorem readNanos?_dropTrailingZeros {n : Nat} (hn : n ≠ 0) (h : n < nanosPerSecond) :
    readNanos? (Text.dropTrailingZeros (Text.padded 9 n)) = some n := by
  obtain ⟨k, hk⟩ := Text.exists_zeros (Text.padded 9 n)
  have hlength : (Text.padded 9 n).length = 9 := Text.length_padded h
  have hvalue := Text.ofDigits_padded 9 n
  have hdigits := Text.allDigits_padded 9 n
  rw [hk] at hlength hvalue hdigits
  generalize Text.dropTrailingZeros (Text.padded 9 n) = fraction at hlength hvalue hdigits
  simp only [List.length_append, List.length_replicate] at hlength
  rw [Text.ofDigits_append, Text.ofDigits_zeros, List.length_replicate, Nat.add_zero] at hvalue
  rw [Text.allDigits, List.all_append, Bool.and_eq_true] at hdigits
  have hne : fraction ≠ [] := by
    intro h
    rw [h, Text.ofDigits, List.foldl_nil, Nat.zero_mul] at hvalue
    exact hn hvalue.symm
  have hle : fraction.length ≤ 9 := by omega
  have hpad : 9 - fraction.length = k := by omega
  simpa [readNanos?, hne, hle, hpad, Text.allDigits, hdigits.1] using hvalue

def renderHead (days hours : Nat) : List Char :=
  (if days = 0 then [] else Text.digits days ++ ['.']) ++ Text.padded 2 hours

def renderTail (seconds nanos : Nat) : List Char :=
  Text.padded 2 seconds ++ renderFraction nanos

theorem not_mem_renderHead {days hours : Nat} {c : Char} (hc : c.isDigit = false)
    (hpoint : c ≠ '.') : c ∉ renderHead days hours := by
  intro h
  rcases List.mem_append.mp h with hdays | hhours
  · split at hdays
    · exact List.not_mem_nil hdays
    · rcases List.mem_append.mp hdays with hdigit | hmem
      · have := Text.isDigit_of_allDigits (Text.allDigits_digits days) hdigit
        simp [hc] at this
      · exact hpoint (List.mem_singleton.mp hmem)
  · exact not_mem_padded hc hhours

theorem renderHead_ne_nil (days hours : Nat) : renderHead days hours ≠ [] := by
  simp [renderHead, Text.padded, Text.digits_ne_nil]

theorem readMagnitude?_eq_some {head middle tail hs ss : List Char}
    {days hours minutes seconds nanos : Nat} (hhead : ':' ∉ head) (hmiddle : ':' ∉ middle)
    (hdays : Text.splitAtFirst? '.' head = none ∧ head = hs ∧ days = 0 ∨
      ∃ ds, Text.splitAtFirst? '.' head = some (ds, hs) ∧ readDays? ds = some days)
    (hnanos : Text.splitAtFirst? '.' tail = none ∧ tail = ss ∧ nanos = 0 ∨
      ∃ fs, Text.splitAtFirst? '.' tail = some (ss, fs) ∧ readNanos? fs = some nanos)
    (hhours : readPair? 24 hs = some hours) (hminutes : readPair? 60 middle = some minutes)
    (hseconds : readPair? 60 ss = some seconds) :
    readMagnitude? (head ++ ':' :: (middle ++ ':' :: tail)) =
      some ((days * secondsPerDay + hours * 3600 + minutes * 60 + seconds) * nanosPerSecond +
        nanos) := by
  simp only [readMagnitude?, Text.splitAtFirst?_append _ hhead,
    Text.splitAtFirst?_append _ hmiddle, Option.bind_eq_bind, Option.bind_some]
  rcases hdays with ⟨hhour, rfl, rfl⟩ | ⟨ds, hhour, hds⟩
  · rcases hnanos with ⟨hsecond, rfl, rfl⟩ | ⟨fs, hsecond, hfs⟩
    · simp only [hhour, hsecond, Option.bind_some, hhours, hminutes, hseconds]
      rfl
    · simp only [hhour, hsecond, Option.bind_some, Option.map_some, hfs, hhours, hminutes, hseconds]
      rfl
  · rcases hnanos with ⟨hsecond, rfl, rfl⟩ | ⟨fs, hsecond, hfs⟩
    · simp only [hhour, hsecond, Option.bind_some, Option.map_some, hds, hhours, hminutes, hseconds]
      rfl
    · simp only [hhour, hsecond, Option.bind_some, Option.map_some, hds, hfs, hhours, hminutes,
        hseconds]
      rfl

theorem splitAtFirst?_padded (n : Nat) : Text.splitAtFirst? '.' (Text.padded 2 n) = none :=
  Text.splitAtFirst?_eq_none (not_mem_padded (by decide))

theorem split_renderHead {days : Nat} (h : days < Nat.pow 2 63) (hours : Nat) :
    Text.splitAtFirst? '.' (renderHead days hours) = none ∧
        renderHead days hours = Text.padded 2 hours ∧ days = 0 ∨
      ∃ ds, Text.splitAtFirst? '.' (renderHead days hours) = some (ds, Text.padded 2 hours) ∧
        readDays? ds = some days := by
  by_cases hdays : days = 0
  · have hrender : renderHead days hours = Text.padded 2 hours := by
      simp [renderHead, hdays]
    exact .inl ⟨hrender ▸ splitAtFirst?_padded hours, hrender, hdays⟩
  · have hpoint : '.' ∉ Text.digits days := by
      intro hmem
      exact absurd (Text.isDigit_of_allDigits (Text.allDigits_digits days) hmem) (by decide)
    have hsplit := Text.splitAtFirst?_append (Text.padded 2 hours) hpoint
    refine .inr ⟨Text.digits days, ?_, readDays?_digits h⟩
    simpa [renderHead, hdays] using hsplit

theorem split_renderTail {nanos : Nat} (h : nanos < nanosPerSecond) (seconds : Nat) :
    Text.splitAtFirst? '.' (renderTail seconds nanos) = none ∧
        renderTail seconds nanos = Text.padded 2 seconds ∧ nanos = 0 ∨
      ∃ fs, Text.splitAtFirst? '.' (renderTail seconds nanos) = some (Text.padded 2 seconds, fs) ∧
        readNanos? fs = some nanos := by
  by_cases hnanos : nanos = 0
  · have hrender : renderTail seconds nanos = Text.padded 2 seconds := by
      simp [renderTail, renderFraction, hnanos]
    exact .inl ⟨hrender ▸ splitAtFirst?_padded seconds, hrender, hnanos⟩
  · refine .inr ⟨_, ?_, readNanos?_dropTrailingZeros hnanos h⟩
    rw [renderTail, renderFraction, if_neg hnanos]
    exact Text.splitAtFirst?_append _ (not_mem_padded (by decide))

theorem readMagnitude?_render {days hours minutes seconds nanos : Nat} (hd : days < Nat.pow 2 63)
    (hh : hours < 24) (hm : minutes < 60) (hs : seconds < 60) (hn : nanos < nanosPerSecond) :
    readMagnitude? (renderHead days hours ++ ':' :: (Text.padded 2 minutes ++
        ':' :: renderTail seconds nanos)) =
      some ((days * secondsPerDay + hours * 3600 + minutes * 60 + seconds) * nanosPerSecond +
        nanos) :=
  readMagnitude?_eq_some (not_mem_renderHead (by decide) (by decide)) (not_mem_padded (by decide))
    (split_renderHead hd hours) (split_renderTail hn seconds) (readPair?_padded (by decide) hh)
    (readPair?_padded (by decide) hm) (readPair?_padded (by decide) hs)

theorem render_magnitude (seconds nanos : Nat) :
    renderSeconds seconds ++ renderFraction nanos =
      renderHead (seconds / secondsPerDay) (seconds % secondsPerDay / 3600) ++ ':' ::
        (Text.padded 2 (seconds % secondsPerDay % 3600 / 60) ++
          ':' :: renderTail (seconds % secondsPerDay % 60) nanos) := by
  simp [renderSeconds, renderHead, renderTail]

theorem readMagnitude?_magnitude {n : Nat} (h : n ≤ limit) :
    readMagnitude? (renderSeconds (n / nanosPerSecond) ++ renderFraction (n % nanosPerSecond)) =
      some n := by
  have hlimit : limit = 9223372036854775807000000 := rfl
  have hdays : n / nanosPerSecond / secondsPerDay < 9223372036854775808 := by
    simp only [nanosPerSecond, secondsPerDay]
    omega
  have hday (s : Nat) : s % secondsPerDay / 3600 < 24 := by
    simp only [secondsPerDay]
    omega
  have hsum (s : Nat) : s / secondsPerDay * secondsPerDay + s % secondsPerDay / 3600 * 3600 +
      s % secondsPerDay % 3600 / 60 * 60 + s % secondsPerDay % 60 = s := by
    simp only [secondsPerDay]
    omega
  rw [render_magnitude, readMagnitude?_render hdays (hday _) (by omega) (Nat.mod_lt _ (by decide))
    (Nat.mod_lt _ (by decide)), hsum, Nat.mul_comm, Nat.div_add_mod]

theorem read_minus (cs : List Char) :
    read ('-' :: cs) =
      match readMagnitude? cs with
      | none => .error .invalidDuration
      | some n => if limit < n then .error .durationOutOfRange else .ok ⟨-n⟩ :=
  rfl

theorem read_unsigned {cs : List Char} (h : cs.head? ≠ some '-') :
    read cs =
      match readMagnitude? cs with
      | none => .error .invalidDuration
      | some n => if limit < n then .error .durationOutOfRange else .ok ⟨n⟩ := by
  unfold read
  split
  next hminus =>
  split at hminus
  · exact absurd rfl h
  · cases hminus
    rfl

theorem head?_magnitude (seconds nanos : Nat) :
    (renderSeconds seconds ++ renderFraction nanos).head? ≠ some '-' := by
  have hne := renderHead_ne_nil (seconds / secondsPerDay) (seconds % secondsPerDay / 3600)
  have hmem := List.head_mem hne
  rw [render_magnitude, List.head?_append, List.head?_eq_some_head hne]
  intro h
  rw [Option.some.inj h] at hmem
  exact not_mem_renderHead (by decide) (by decide) hmem

theorem read_render {d : Duration} (h : d.nanos.natAbs ≤ limit) : read d.render = .ok d := by
  obtain ⟨nanos⟩ := d
  have hmagnitude := readMagnitude?_magnitude h
  simp only [render, List.append_assoc]
  split
  · next hneg =>
    have hvalue : -(nanos.natAbs : Int) = nanos := by omega
    rw [List.singleton_append, read_minus, hmagnitude]
    simp only [if_neg (Nat.not_lt.mpr h), hvalue]
  · next hpos =>
    have hvalue : (nanos.natAbs : Int) = nanos := by omega
    rw [List.nil_append, read_unsigned (head?_magnitude _ _), hmagnitude]
    simp only [if_neg (Nat.not_lt.mpr h), hvalue]

end FilterQuery.Duration
