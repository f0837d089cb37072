import FilterQuery.Proofs.Layout

namespace FilterQuery

/-- Whether a text goes on, not with a blank, and has no token at its beginning. -/
def StartsNoToken (cs : List Char) : Prop :=
  (∃ c ∈ cs.head?, Text.isBlank c = false) ∧ ∀ x rest t, Spells x t → cs ≠ x ++ rest

/-- Whether a text is a quotation up to a backslash that escapes nothing. -/
def BreaksAt (text cs : List Char) : Prop :=
  ∃ c more, cs = '\'' :: Text.escape text ++ '\\' :: c :: more ∧ Text.needsEscape c = false

/-- How far into a text that starts no token its fault lies: at the first invalid escape of a
quotation, else at the beginning. -/
inductive FaultOffset (cs : List Char) : Nat → Prop
  | escape {text : List Char} : BreaksAt text cs →
      FaultOffset cs (Text.byteLength ('\'' :: Text.escape text))
  | start : (∀ text, ¬ BreaksAt text cs) → FaultOffset cs 0

theorem FaultOffset.exists_append {cs : List Char} {n : Nat} (h : FaultOffset cs n) :
    ∃ before after, cs = before ++ after ∧ n = Text.byteLength before := by
  cases h with
  | escape hbreaks =>
    obtain ⟨c, more, hcs, _⟩ := hbreaks
    exact ⟨_, _, hcs, rfl⟩
  | start => exact ⟨[], cs, rfl, rfl⟩

/-! ## Quotations -/

namespace Text

theorem readQuoted_badEscape {c : Char} (hc : needsEscape c = false) (text more : List Char) :
    readQuoted (escape text ++ '\\' :: c :: more) =
      .error (.badEscape c (byteLength (escape text))) := by
  have hbackslash : '\\'.utf8Size = 1 := rfl
  induction text with
  | nil => simp [escape, readQuoted, hc, byteLength]
  | cons d text ih =>
    by_cases hd : needsEscape d = true
    · simp [escape, readQuoted, hd, ih, prepend, byteLength, hbackslash, Nat.add_assoc]
    · have hq : d ≠ '\'' ∧ d ≠ '\\' := by simpa [needsEscape] using hd
      rw [escape, if_neg hd, List.cons_append, readQuoted, ih]
      · rfl
      · exact hq.1
      · intro x xs hb
        exact absurd hb hq.2

theorem prepend_eq_badEscape {c d : Char} {width n : Nat}
    {r : Except QuoteFault (List Char × List Char)}
    (h : prepend c width r = .error (.badEscape d n)) : ∃ m, r = .error (.badEscape d m) := by
  cases r with
  | ok p => simp [prepend] at h
  | error f =>
    cases f with
    | unterminated => simp [prepend] at h
    | badEscape x m =>
      simp only [prepend, Except.error.injEq, QuoteFault.badEscape.injEq] at h
      exact ⟨m, by rw [h.1]⟩

theorem escape_of_badEscape {cs : List Char} {c : Char} {n : Nat}
    (h : readQuoted cs = .error (.badEscape c n)) :
    ∃ text more, cs = escape text ++ '\\' :: c :: more ∧ needsEscape c = false := by
  fun_induction readQuoted cs generalizing n with
  | case1 => cases h
  | case2 => cases h
  | case3 d cs hd ih =>
    obtain ⟨m, hr⟩ := prepend_eq_badEscape h
    obtain ⟨text, more, rfl, hc⟩ := ih hr
    exact ⟨d :: text, more, by simp [escape, hd], hc⟩
  | case4 d cs hd =>
    cases h
    exact ⟨[], cs, rfl, by simpa using hd⟩
  | case5 d cs hq hb ih =>
    obtain ⟨m, hr⟩ := prepend_eq_badEscape h
    obtain ⟨text, more, rfl, hc⟩ := ih hr
    have hd : d ≠ '\\' := by
      intro hd
      obtain ⟨x, xs, hxs⟩ :=
        List.exists_cons_of_ne_nil (l := escape text ++ '\\' :: c :: more) (by simp)
      exact hb x xs hd hxs
    have hn : needsEscape d = false := by
      simp [needsEscape, hd]
      exact hq
    exact ⟨d :: text, more, by simp [escape, hn], hc⟩

end Text

theorem faultOffset_of_scanQuoted {cs : List Char} {f : Fault} (h : scanQuoted cs = .error f) :
    FaultOffset ('\'' :: cs) f.position := by
  simp only [scanQuoted] at h
  split at h
  · cases h
  · next hread =>
    cases h
    refine .start ?_
    intro text hbreaks
    obtain ⟨c, more, hcs, hc⟩ := hbreaks
    have hcs : cs = Text.escape text ++ '\\' :: c :: more := by simpa using hcs
    rw [hcs, Text.readQuoted_badEscape hc] at hread
    cases hread
  · next c n hread =>
    cases h
    obtain ⟨text, more, rfl, hc⟩ := Text.escape_of_badEscape hread
    rw [Text.readQuoted_badEscape hc] at hread
    cases hread
    exact .escape ⟨c, more, rfl, hc⟩

/-! ## Texts that start no token -/

theorem Delimits.of_append {a b : List Char} {t : Token} (h : Delimits (a ++ b) t) :
    Delimits a t := by
  intro w hw c hc
  refine h w hw c ?_
  rw [List.head?_append, Option.mem_def.mp hc]
  rfl

theorem scanToken_of_spells {x : List Char} {t : Token} (h : Spells x t) (rest : List Char) :
    ∃ u, scanToken (x ++ rest) = .ok u := by
  by_cases ht : ∃ w, t = .word w
  · obtain ⟨w, rfl⟩ := ht
    obtain ⟨c, cs, rfl, hc⟩ := h.head_word
    have hquote : c ≠ '\'' := by
      rintro rfl
      simp [isWordChar, Char.isAlphanum] at hc
    rw [List.cons_append]
    simp only [scanToken, ofMark?_of_isWordChar hc, if_neg hquote, hc, if_true]
    split <;> exact ⟨_, rfl⟩
  · refine ⟨_, scanToken_spells h ?_⟩
    intro w hw
    exact absurd ⟨w, hw⟩ ht

theorem Text.isBlank_of_mem_head?_trimStart {cs : List Char} :
    ∀ c ∈ (trimStart cs).head?, isBlank c = false := by
  intro c hc
  have hstop := List.head?_dropWhile_not isBlank cs
  rw [trimStart, Option.mem_def] at hc
  rw [hc] at hstop
  simpa using hstop

theorem startsNoToken_of_scanToken {cs : List Char} {f : Fault} (h : scanToken cs = .error f)
    (hblank : ∀ c ∈ cs.head?, Text.isBlank c = false) :
    StartsNoToken cs ∧ FaultOffset cs f.position := by
  refine ⟨⟨?_, ?_⟩, ?_⟩
  · cases cs with
    | nil => cases h
    | cons c cs => exact ⟨c, rfl, hblank c rfl⟩
  · rintro x rest t hx rfl
    obtain ⟨u, hu⟩ := scanToken_of_spells hx rest
    rw [hu] at h
    cases h
  · cases cs with
    | nil => cases h
    | cons c cs =>
      simp only [scanToken] at h
      split at h
      · cases h
      split at h
      · next hc =>
        subst hc
        exact faultOffset_of_scanQuoted h
      split at h
      · cases h
      split at h
      · cases h
      · next hquote _ _ =>
        cases h
        refine .start ?_
        intro text hbreaks
        obtain ⟨d, more, hcs, _⟩ := hbreaks
        exact hquote (List.cons.inj hcs).1

namespace Cursor

theorem next_eq_error {c c' : Cursor} {f : Fault} (h : c.next = (.error f, c')) :
    ∃ lead bad n, AllBlank lead ∧ c.rest = lead ++ bad ∧ StartsNoToken bad ∧ FaultOffset bad n ∧
      f.position = c.position + Text.byteLength lead + n := by
  simp only [next] at h
  split at h
  · cases h
  · next f' hscan =>
    cases h
    obtain ⟨hbad, hoffset⟩ := startsNoToken_of_scanToken hscan Text.isBlank_of_mem_head?_trimStart
    exact ⟨_, _, _, List.all_eq_true.mp List.all_takeWhile,
      List.takeWhile_append_dropWhile.symm, hbad, hoffset, rfl⟩

/-- Where a text cannot be split into tokens, tokens in a layout stand before the place. -/
theorem layout_of_error {c : Cursor} {f : Fault} (h : c.lexemes = .error f) :
    ∃ lead ws bad n, Layout lead ws ∧ c.rest = lead ++ (Placed.text ws ++ bad) ∧
      StartsNoToken bad ∧ FaultOffset bad n ∧
      f.position = c.position + Text.byteLength (lead ++ Placed.text ws) + n := by
  fun_induction Cursor.lexemes c with
  | case1 c f' c' hnext =>
    cases h
    obtain ⟨lead, bad, n, hlead, hrest, hbad, hoffset, hposition⟩ := next_eq_error hnext
    refine ⟨lead, [], bad, n, .nil hlead, hrest, hbad, hoffset, ?_⟩
    simpa [Placed.text] using hposition
  | case2 => cases h
  | case3 => cases h
  | case4 c l c' hnext heof _ f' hf ih =>
    cases h
    obtain ⟨lead, hlead, hposition, ⟨h, _⟩ | ⟨x, hspell, hdelimits, hrest, hposition'⟩⟩ :=
      next_eq_ok hnext
    · exact absurd h heof
    · obtain ⟨blanks, ws, bad, n, hlayout, hrest', hbad, hoffset, hfault⟩ := ih hf
      refine ⟨lead, ⟨l.token, x, blanks⟩ :: ws, bad, n, ?_, ?_, hbad, hoffset, ?_⟩
      · rw [hrest', ← List.append_assoc] at hdelimits
        exact .cons hlead hspell hdelimits.of_append hlayout
      · simp [hrest, hrest', Placed.text, Placed.chars]
      · rw [hfault, hposition', hposition]
        simp [Placed.text, Placed.chars]
        omega

end Cursor

end FilterQuery
