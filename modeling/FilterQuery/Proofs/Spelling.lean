import FilterQuery.Proofs.Grammar

namespace FilterQuery

theorem Text.readQuoted_escape (cs rest : List Char) :
    Text.readQuoted (Text.escape cs ++ '\'' :: rest) = .ok (cs, rest) := by
  induction cs with
  | nil => rfl
  | cons c cs ih =>
    by_cases hc : Text.needsEscape c = true
    · simp [Text.escape, Text.readQuoted, hc, ih, Text.prepend]
    · have hq : c ≠ '\'' ∧ c ≠ '\\' := by simpa [Text.needsEscape] using hc
      rw [Text.escape, if_neg hc, List.cons_append, Text.readQuoted, ih]
      · rfl
      · exact hq.1
      · intro d ds hb
        exact absurd hb hq.2

/-- The ways to write a token that is not the end of the query. -/
inductive Spells : List Char → Token → Prop
  | mark {c : Char} {t : Token} : Token.ofMark? c = some t → Spells [c] t
  | word {w : List Char} : w ≠ [] → (∀ c ∈ w, isWordChar c = true) →
      Spells w (.word (String.ofList w))
  | quoted {s : String} : s ≠ nullText → Spells (Text.quote s).toList (.quoted s)
  | quotedNull : Spells (Text.quote nullText).toList .null
  | null : Spells nullText.toList .null

theorem Spells.eq_quote {x : List Char} {s : String} (h : Spells x (.quoted s)) :
    x = (Text.quote s).toList ∧ s ≠ nullText := by
  generalize ht : Token.quoted s = t at h
  cases h with
  | mark hc =>
    subst ht
    unfold Token.ofMark? at hc
    split at hc <;> cases hc
  | quoted hs =>
    cases ht
    exact ⟨rfl, hs⟩
  | _ => cases ht

/-- Whether a text can follow a token: a word goes on as long as its characters do. -/
def Delimits (rest : List Char) (t : Token) : Prop :=
  ∀ w, t = .word w → ∀ c ∈ rest.head?, isWordChar c = false

theorem isWordChar_toNat {c : Char} (h : isWordChar c = true) :
    48 ≤ c.toNat ∧ c.toNat ≤ 57 ∨ 65 ≤ c.toNat ∧ c.toNat ≤ 90 ∨ c.toNat = 95 ∨
      97 ≤ c.toNat ∧ c.toNat ≤ 122 := by
  have hclass : (((c.isUpper || c.isLower) || c.isDigit) || c == '_') = true := h
  simp only [Bool.or_eq_true, beq_iff_eq] at hclass
  rcases hclass with ((hupper | hlower) | hdigit) | rfl
  · have hrange := of_decide_eq_true hupper
    exact .inr (.inl ⟨UInt32.le_iff_toNat_le.mp hrange.1, UInt32.le_iff_toNat_le.mp hrange.2⟩)
  · have hrange := Bool.and_eq_true_iff.mp hlower
    exact .inr (.inr (.inr ⟨UInt32.le_iff_toNat_le.mp (of_decide_eq_true hrange.1),
      UInt32.le_iff_toNat_le.mp (of_decide_eq_true hrange.2)⟩))
  · have hrange := Bool.and_eq_true_iff.mp hdigit
    exact .inl ⟨UInt32.le_iff_toNat_le.mp (of_decide_eq_true hrange.1),
      UInt32.le_iff_toNat_le.mp (of_decide_eq_true hrange.2)⟩
  · exact .inr (.inr (.inl rfl))

theorem isBlank_of_isWordChar {c : Char} (h : isWordChar c = true) : Text.isBlank c = false := by
  have hc := isWordChar_toNat h
  simp only [Text.isBlank, Bool.or_eq_false_iff, Bool.and_eq_false_iff, decide_eq_false_iff_not,
    beq_eq_false_iff_ne]
  omega

theorem Token.ofMark?_eq_some {c : Char} {t : Token} (h : Token.ofMark? c = some t) :
    Text.isBlank c = false ∧ isWordChar c = false ∧ t ≠ .eof ∧ ∀ w, t ≠ .word w := by
  unfold Token.ofMark? at h
  split at h <;> cases h <;> exact ⟨by decide, by decide, by decide, by simp⟩

theorem ofMark?_of_isWordChar {c : Char} (h : isWordChar c = true) : Token.ofMark? c = none := by
  cases hmark : Token.ofMark? c with
  | none => rfl
  | some t =>
    have hword := (Token.ofMark?_eq_some hmark).2.1
    rw [h] at hword
    cases hword

theorem Spells.head {x : List Char} {t : Token} (h : Spells x t) :
    ∃ c cs, x = c :: cs ∧ Text.isBlank c = false := by
  cases h with
  | @mark c _ hc => exact ⟨c, [], rfl, (Token.ofMark?_eq_some hc).1⟩
  | word hne hw =>
    obtain ⟨c, w, rfl⟩ := List.exists_cons_of_ne_nil hne
    exact ⟨c, w, rfl, isBlank_of_isWordChar (hw c (by simp))⟩
  | @quoted s _ => exact ⟨'\'', Text.escape s.toList ++ ['\''], by simp [Text.quote], by decide⟩
  | quotedNull =>
    exact ⟨'\'', Text.escape nullText.toList ++ ['\''], by simp [Text.quote], by decide⟩
  | null => exact ⟨'$', _, rfl, by decide⟩

theorem scanToken_quote (s : String) (rest : List Char) :
    scanToken ((Text.quote s).toList ++ rest) =
      .ok ⟨if s = nullText then .null else .quoted s, (Text.quote s).toList, rest⟩ := by
  simp [Text.quote, scanToken, Token.ofMark?, scanQuoted, Text.readQuoted_escape]

theorem scanToken_word {w rest : List Char} (hne : w ≠ []) (hw : ∀ c ∈ w, isWordChar c = true)
    (hrest : ∀ c ∈ rest.head?, isWordChar c = false) :
    scanToken (w ++ rest) = .ok ⟨.word (String.ofList w), w, rest⟩ := by
  obtain ⟨c, w, rfl⟩ := List.exists_cons_of_ne_nil hne
  have hc : isWordChar c = true := hw c (by simp)
  have hw' : ∀ d ∈ w, isWordChar d = true := fun d hd => hw d (by simp [hd])
  have hquote : c ≠ '\'' := by
    rintro rfl
    simp [isWordChar, Char.isAlphanum] at hc
  have hnull : nullText.toList.isPrefixOf (c :: (w ++ rest)) = false := by
    have hdollar : c ≠ '$' := by
      rintro rfl
      simp [isWordChar, Char.isAlphanum] at hc
    simp [nullText, List.isPrefixOf, hdollar.symm]
  have htake : rest.takeWhile isWordChar = [] := by
    cases rest with
    | nil => rfl
    | cons d rest => simp [hrest d rfl]
  have hdrop : rest.dropWhile isWordChar = rest := by
    cases rest with
    | nil => rfl
    | cons d rest => simp [hrest d rfl]
  simp [scanToken, ofMark?_of_isWordChar hc, hquote, hnull, hc, List.takeWhile_append_of_pos hw',
    List.dropWhile_append_of_pos hw', htake, hdrop]

/-- A token is read back from any of its spellings, whatever can follow it. -/
theorem scanToken_spells {x rest : List Char} {t : Token} (h : Spells x t)
    (hrest : Delimits rest t) : scanToken (x ++ rest) = .ok ⟨t, x, rest⟩ := by
  cases h with
  | mark hc => simp [scanToken, hc]
  | word hne hw => exact scanToken_word hne hw (hrest _ rfl)
  | quoted hs => rw [scanToken_quote, if_neg hs]
  | quotedNull => rw [scanToken_quote, if_pos rfl]
  | null => simp [nullText, scanToken, Token.ofMark?, List.isPrefixOf]

theorem Spells.ne_eof {x : List Char} {t : Token} (h : Spells x t) : t ≠ .eof := by
  cases h with
  | mark hc => exact (Token.ofMark?_eq_some hc).2.2.1
  | _ => simp

namespace Cursor

theorem next_spells {x rest : List Char} {t : Token} {p : Nat} (h : Spells x t)
    (hrest : Delimits rest t) :
    (⟨x ++ rest, p⟩ : Cursor).next = (.ok ⟨t, p⟩, ⟨rest, p + Text.byteLength x⟩) := by
  obtain ⟨c, cs, hx, hc⟩ := h.head
  have htake : (x ++ rest).takeWhile Text.isBlank = [] := by simp [hx, hc]
  have htrim : Text.trimStart (x ++ rest) = x ++ rest := by simp [Text.trimStart, hx, hc]
  simp only [next, htake, htrim, scanToken_spells h hrest, Text.byteLength, Nat.add_zero]

theorem next_blank {c : Char} {cs : List Char} {p : Nat} (hc : Text.isBlank c = true) :
    (⟨c :: cs, p⟩ : Cursor).next = (⟨cs, p + c.utf8Size⟩ : Cursor).next := by
  simp [next, hc, Text.trimStart, Text.byteLength, Nat.add_assoc]

theorem lexemes_congr {c d : Cursor} (h : c.next = d.next) : c.lexemes = d.lexemes := by
  cases hd : d.next with
  | mk r d' =>
    rw [hd] at h
    cases r with
    | error f => rw [lexemes_of_error h, lexemes_of_error hd]
    | ok l =>
      by_cases hl : l.token = .eof
      · rw [lexemes_of_eof h hl, lexemes_of_eof hd hl]
      · rw [lexemes_of_next h hl, lexemes_of_next hd hl]

end Cursor

/-- Whether a text is made of these tokens, wherever it stands in a query. -/
def Reads (cs : List Char) (ts : List Token) : Prop :=
  ∀ p, ∃ ls q, (⟨cs, p⟩ : Cursor).lexemes = .ok (ls ++ [⟨.eof, q⟩]) ∧ Lexemes.tokens ls = ts

namespace Reads

theorem nil : Reads [] [] := by
  intro p
  refine ⟨[], p, ?_, rfl⟩
  exact Cursor.lexemes_of_eof rfl rfl

theorem blank {c : Char} {cs : List Char} {ts : List Token} (hc : Text.isBlank c = true)
    (h : Reads cs ts) : Reads (c :: cs) ts := by
  intro p
  rw [Cursor.lexemes_congr (Cursor.next_blank hc)]
  exact h (p + c.utf8Size)

theorem cons {x rest : List Char} {t : Token} {ts : List Token} (hx : Spells x t)
    (hrest : Delimits rest t) (h : Reads rest ts) : Reads (x ++ rest) (t :: ts) := by
  intro p
  obtain ⟨ls, q, hls, hts⟩ := h (p + Text.byteLength x)
  refine ⟨⟨t, p⟩ :: ls, q, ?_, by simp [hts]⟩
  rw [Cursor.lexemes_of_next (Cursor.next_spells hx hrest) hx.ne_eof, hls]
  rfl

end Reads

theorem parse_eq_ok_iff_of_reads {s : String} {ts : List Token} {cs : List Clause}
    (h : Reads s.toList ts) : parse s = .ok cs ↔ DerivesQuery ts cs := by
  obtain ⟨ls, q, hls, rfl⟩ := h 0
  rw [parse_eq_ok_iff]
  apply Iff.intro
  · intro h
    obtain ⟨ms, r, hms, hd⟩ := h
    rw [tokenize, Cursor.ofText, hls] at hms
    obtain ⟨rfl, _⟩ := List.append_inj' (Except.ok.inj hms) rfl
    exact hd
  · intro hd
    exact ⟨ls, q, hls, hd⟩

end FilterQuery
