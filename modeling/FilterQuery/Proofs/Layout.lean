import FilterQuery.Proofs.Spelling
import Mathlib.Data.List.Chain

namespace FilterQuery

/-- A token as it stands in a text: its spelling, and the blanks after it. -/
structure Placed where
  token : Token
  spelling : List Char
  blanks : List Char

namespace Placed

def chars (w : Placed) : List Char := w.spelling ++ w.blanks

def text (ws : List Placed) : List Char := ws.flatMap chars

/-- Two words with nothing between them would be one word. -/
def Apart (v w : Placed) : Prop :=
  ∀ a b, v.token = .word a → w.token = .word b → v.blanks ≠ []

/-- The lexemes of placed tokens, the first of which starts at a byte position. -/
def lexemes (p : Nat) : List Placed → List Lexeme
  | [] => [⟨.eof, p⟩]
  | w :: ws => ⟨w.token, p⟩ :: lexemes (p + Text.byteLength w.chars) ws

end Placed

def AllBlank (cs : List Char) : Prop := ∀ c ∈ cs, Text.isBlank c = true

/-- A way to write tokens with blanks before, between and after them. -/
structure Layout (lead : List Char) (ws : List Placed) : Prop where
  lead : AllBlank lead
  spells : ∀ w ∈ ws, Spells w.spelling w.token
  blanks : ∀ w ∈ ws, AllBlank w.blanks
  apart : ws.IsChain Placed.Apart

theorem isWordChar_of_isBlank {c : Char} (h : Text.isBlank c = true) : isWordChar c = false := by
  cases hc : isWordChar c with
  | false => rfl
  | true =>
    rw [isBlank_of_isWordChar hc] at h
    cases h

theorem Spells.head_not_word {x : List Char} {t : Token} (h : Spells x t)
    (ht : ∀ w, t ≠ .word w) : ∀ c ∈ x.head?, isWordChar c = false := by
  cases h with
  | mark hc => simpa using (Token.ofMark?_eq_some hc).2.1
  | word => exact absurd rfl (ht _)
  | quoted | quotedNull =>
    have hquote : isWordChar '\'' = false := by decide
    simpa [Text.quote] using hquote
  | null =>
    have hdollar : isWordChar '$' = false := by decide
    simpa [nullText] using hdollar

theorem Spells.head_word {x : List Char} {a : String} (h : Spells x (.word a)) :
    ∃ c cs, x = c :: cs ∧ isWordChar c = true := by
  generalize ht : Token.word a = t at h
  cases h with
  | mark hc => exact absurd ht.symm ((Token.ofMark?_eq_some hc).2.2.2 a)
  | word hne hw =>
    obtain ⟨c, cs, rfl⟩ := List.exists_cons_of_ne_nil hne
    exact ⟨c, cs, rfl, hw c List.mem_cons_self⟩
  | _ => cases ht

namespace Layout

variable {lead : List Char} {w : Placed} {ws : List Placed}

theorem nil (h : AllBlank lead) : Layout lead [] :=
  ⟨h, by simp, by simp, .nil⟩

theorem tail (h : Layout lead (w :: ws)) : Layout w.blanks ws where
  lead := h.blanks w List.mem_cons_self
  spells v hv := h.spells v (List.mem_cons_of_mem w hv)
  blanks v hv := h.blanks v (List.mem_cons_of_mem w hv)
  apart := h.apart.tail

theorem delimits (h : Layout lead (w :: ws)) : Delimits (w.blanks ++ Placed.text ws) w.token := by
  intro a ha c hc
  cases hb : w.blanks with
  | cons b bs =>
    rw [hb] at hc
    cases hc
    exact isWordChar_of_isBlank (h.blanks w List.mem_cons_self c (by simp [hb]))
  | nil =>
    cases ws with
    | nil => simp [hb, Placed.text] at hc
    | cons v vs =>
      have hspell := h.spells v (by simp)
      have hnot : ∀ b, v.token ≠ .word b := by
        intro b hv
        exact (List.isChain_cons_cons.mp h.apart).1 a b ha hv hb
      obtain ⟨d, ds, hd, _⟩ := hspell.head
      have hhead := hspell.head_not_word hnot d (by simp [hd])
      simp only [hb, Placed.text, List.flatMap_cons, Placed.chars, hd, List.nil_append,
        List.cons_append, List.head?_cons, Option.mem_some_iff] at hc
      exact hc ▸ hhead

end Layout

namespace Cursor

theorem next_blanks {lead cs : List Char} {p : Nat} (h : AllBlank lead) :
    (⟨lead ++ cs, p⟩ : Cursor).next = (⟨cs, p + Text.byteLength lead⟩ : Cursor).next := by
  induction lead generalizing p with
  | nil => rfl
  | cons c lead ih =>
    rw [List.cons_append, next_blank (h c List.mem_cons_self),
      ih fun d hd => h d (List.mem_cons_of_mem c hd), Text.byteLength, Nat.add_assoc]

theorem lexemes_layout {lead : List Char} {ws : List Placed} {p : Nat} (h : Layout lead ws) :
    (⟨lead ++ Placed.text ws, p⟩ : Cursor).lexemes =
      .ok (Placed.lexemes (p + Text.byteLength lead) ws) := by
  rw [lexemes_congr (next_blanks h.lead)]
  induction ws generalizing lead p with
  | nil => exact lexemes_of_eof rfl rfl
  | cons w ws ih =>
    have hspell := h.spells w List.mem_cons_self
    have hnext := next_spells (p := p + Text.byteLength lead) hspell h.delimits
    have htext : Placed.text (w :: ws) = w.spelling ++ (w.blanks ++ Placed.text ws) := by
      simp [Placed.text, Placed.chars]
    rw [htext, lexemes_of_next hnext hspell.ne_eof, lexemes_congr (next_blanks h.tail.lead),
      ih h.tail]
    simp [Except.map, Placed.lexemes, Placed.chars, Nat.add_assoc]

end Cursor

/-! ## What a text that is read looks like -/

theorem scanToken_eq_ok {cs : List Char} {t : Scanned} (h : scanToken cs = .ok t) :
    t.token = .eof ∧ cs = [] ∨ Spells t.spelling t.token ∧ Delimits t.rest t.token := by
  cases cs with
  | nil =>
    cases h
    exact .inl ⟨rfl, rfl⟩
  | cons c cs =>
    refine .inr ?_
    simp only [scanToken] at h
    split at h
    · next u hmark =>
      cases h
      refine ⟨.mark hmark, ?_⟩
      intro w hw
      exact absurd hw ((Token.ofMark?_eq_some hmark).2.2.2 w)
    split at h
    · simp only [scanQuoted] at h
      split at h
      · next text rest hread =>
        cases h
        have hquote : '\'' :: Text.escape text ++ ['\''] = (Text.quote (.ofList text)).toList := by
          simp [Text.quote]
        simp only [hquote]
        by_cases hnull : String.ofList text = nullText
        · rw [if_pos hnull, hnull]
          exact ⟨.quotedNull, by simp [Delimits]⟩
        · rw [if_neg hnull]
          exact ⟨.quoted hnull, by simp [Delimits]⟩
      all_goals cases h
    split at h
    · cases h
      exact ⟨.null, by simp [Delimits]⟩
    split at h
    · next hword =>
      cases h
      have hall : ∀ d ∈ c :: cs.takeWhile isWordChar, isWordChar d = true := by
        intro d hd
        rcases List.mem_cons.mp hd with rfl | hd
        · exact hword
        · exact List.all_eq_true.mp List.all_takeWhile d hd
      refine ⟨.word (by simp) hall, ?_⟩
      intro w _ d hd
      have hstop := List.head?_dropWhile_not isWordChar cs
      rw [Option.mem_def.mp hd] at hstop
      simpa using hstop
    · cases h

theorem Layout.cons {lead : List Char} {w : Placed} {ws : List Placed} (hlead : AllBlank lead)
    (hspell : Spells w.spelling w.token)
    (hrest : Delimits (w.blanks ++ Placed.text ws) w.token) (h : Layout w.blanks ws) :
    Layout lead (w :: ws) where
  lead := hlead
  spells := by simpa using ⟨hspell, h.spells⟩
  blanks := by simpa using ⟨h.lead, h.blanks⟩
  apart := by
    cases ws with
    | nil => exact .singleton w
    | cons v vs =>
      refine .cons_cons ?_ h.apart
      intro a b ha hb hnil
      have hnext := h.spells v List.mem_cons_self
      rw [hb] at hnext
      obtain ⟨c, cs, hc, hword⟩ := hnext.head_word
      have hstop := hrest a ha c (by simp [hnil, Placed.text, Placed.chars, hc])
      rw [hword] at hstop
      cases hstop

namespace Cursor

theorem next_eq_ok {c c' : Cursor} {l : Lexeme} (h : c.next = (.ok l, c')) :
    ∃ lead, AllBlank lead ∧ l.position = c.position + Text.byteLength lead ∧
      (l.token = .eof ∧ c.rest = lead ∨
        ∃ x, Spells x l.token ∧ Delimits c'.rest l.token ∧ c.rest = lead ++ (x ++ c'.rest) ∧
          c'.position = l.position + Text.byteLength x) := by
  simp only [next] at h
  have hsplit : c.rest.takeWhile Text.isBlank ++ Text.trimStart c.rest = c.rest :=
    List.takeWhile_append_dropWhile
  split at h
  · next t hscan =>
    cases h
    refine ⟨c.rest.takeWhile Text.isBlank, List.all_eq_true.mp List.all_takeWhile, rfl, ?_⟩
    rcases scanToken_eq_ok hscan with ⟨heof, hend⟩ | ⟨hspell, hrest⟩
    · refine .inl ⟨heof, ?_⟩
      rw [hend, List.append_nil] at hsplit
      exact hsplit.symm
    · refine .inr ⟨t.spelling, hspell, hrest, ?_, rfl⟩
      rw [spelling_append_rest hscan, hsplit]
  · cases h

theorem layout_of_lexemes {c : Cursor} {ls : List Lexeme} (h : c.lexemes = .ok ls) :
    ∃ lead ws, Layout lead ws ∧ c.rest = lead ++ Placed.text ws ∧
      ls = Placed.lexemes (c.position + Text.byteLength lead) ws := by
  fun_induction Cursor.lexemes c generalizing ls with
  | case1 => cases h
  | case2 c l c' hnext heof =>
    cases h
    obtain ⟨lead, hlead, hposition, ⟨_, hrest⟩ | ⟨x, hspell, _⟩⟩ := next_eq_ok hnext
    · refine ⟨lead, [], .nil hlead, by simp [hrest, Placed.text], ?_⟩
      rw [← hposition, Placed.lexemes, ← heof]
    · exact absurd heof hspell.ne_eof
  | case3 c l c' hnext heof _ ls' hls ih =>
    cases h
    obtain ⟨lead, hlead, hposition, ⟨h, _⟩ | ⟨x, hspell, hdelimits, hrest, hposition'⟩⟩ :=
      next_eq_ok hnext
    · exact absurd h heof
    · obtain ⟨blanks, ws, hlayout, hrest', rfl⟩ := ih hls
      refine ⟨lead, ⟨l.token, x, blanks⟩ :: ws, ?_, ?_, ?_⟩
      · exact .cons hlead hspell (hrest' ▸ hdelimits) hlayout
      · simp [hrest, hrest', Placed.text, Placed.chars]
      · simp [Placed.lexemes, Placed.chars, ← hposition, hposition', Nat.add_assoc]
  | case4 => cases h

end Cursor

theorem Placed.tokens_lexemes (p : Nat) (ws : List Placed) :
    Lexemes.tokens (lexemes p ws) = ws.map (·.token) ++ [.eof] := by
  induction ws generalizing p with
  | nil => rfl
  | cons w ws ih => rw [lexemes, Lexemes.tokens_cons, ih, List.map_cons, List.cons_append]

theorem Cursor.exists_layout {c : Cursor} {ls : Lexemes} {q : Nat}
    (h : c.lexemes = .ok (ls ++ [⟨.eof, q⟩])) :
    ∃ lead ws, Layout lead ws ∧ c.rest = lead ++ Placed.text ws ∧
      Lexemes.tokens ls = ws.map (·.token) := by
  obtain ⟨lead, ws, hlayout, hrest, hls⟩ := layout_of_lexemes h
  refine ⟨lead, ws, hlayout, hrest, ?_⟩
  have htokens := congrArg Lexemes.tokens hls
  rw [Placed.tokens_lexemes, Lexemes.tokens_append] at htokens
  exact List.append_cancel_right htokens

end FilterQuery
