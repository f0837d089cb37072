import FilterQuery.Query.Problem

namespace FilterQuery

def isWordChar (c : Char) : Bool :=
  c.isAlphanum || c == '_'

/-- A token, the text that it was read from, and what follows it. -/
structure Scanned where
  token : Token
  spelling : List Char
  rest : List Char
  deriving DecidableEq, Repr

/-- Reads on after an opening quote. Quoting the reserved word does not change its meaning. -/
def scanQuoted (cs : List Char) : Except Fault Scanned :=
  match Text.readQuoted cs with
  | .ok (text, rest) =>
    let s := String.ofList text
    .ok ⟨if s = nullText then .null else .quoted s, '\'' :: Text.escape text ++ ['\''], rest⟩
  | .error .unterminated => .error ⟨.unterminatedText, 0⟩
  | .error (.badEscape c position) => .error ⟨.invalidEscape c, 1 + position⟩

/-- Reads the token that a text begins with. Positions of faults count from the start of it. -/
def scanToken : List Char → Except Fault Scanned
  | [] => .ok ⟨.eof, [], []⟩
  | c :: cs =>
    match Token.ofMark? c with
    | some t => .ok ⟨t, [c], cs⟩
    | none =>
      if c = '\'' then scanQuoted cs
      else if nullText.toList.isPrefixOf (c :: cs) then
        .ok ⟨.null, nullText.toList, (c :: cs).drop nullText.toList.length⟩
      else if isWordChar c then
        let word := c :: cs.takeWhile isWordChar
        .ok ⟨.word (String.ofList word), word, cs.dropWhile isWordChar⟩
      else .error ⟨.unexpectedCharacter c, 0⟩

/-- A place in a query: the text that is left to read, and its byte position. -/
structure Cursor where
  rest : List Char
  position : Nat
  deriving DecidableEq, Repr

namespace Cursor

def ofText (s : String) : Cursor := ⟨s.toList, 0⟩

/-- Reads one token. After a fault the cursor stands before the text that starts no token. -/
def next (c : Cursor) : Except Fault Lexeme × Cursor :=
  let start := c.position + Text.byteLength (c.rest.takeWhile Text.isBlank)
  let text := Text.trimStart c.rest
  match scanToken text with
  | .ok t => (.ok ⟨t.token, start⟩, ⟨t.rest, start + Text.byteLength t.spelling⟩)
  | .error f => (.error ⟨f.problem, start + f.position⟩, ⟨text, start⟩)

end Cursor

theorem Text.escape_append_of_readQuoted {cs text rest : List Char}
    (h : Text.readQuoted cs = .ok (text, rest)) : Text.escape text ++ '\'' :: rest = cs := by
  have step {c : Char} {n : Nat} {r : Except Text.QuoteFault (List Char × List Char)}
      {text rest : List Char} (h : Text.prepend c n r = .ok (text, rest)) :
      ∃ tail, r = .ok (tail, rest) ∧ text = c :: tail := by
    cases r with
    | ok p => simp [Text.prepend] at h; exact ⟨p.1, by rw [← h.2], h.1.symm⟩
    | error e => cases e <;> simp [Text.prepend] at h
  fun_induction Text.readQuoted cs generalizing text rest with
  | case1 => simp at h
  | case2 => simp at h; simp [h, Text.escape]
  | case3 c cs hc ih =>
    obtain ⟨tail, hr, rfl⟩ := step h
    simp [Text.escape, hc, ih hr]
  | case4 => simp at h
  | case5 c cs hq hb ih =>
    obtain ⟨tail, hr, rfl⟩ := step h
    have hc : c ≠ '\\' := by
      intro hc
      cases cs with
      | nil => simp [Text.readQuoted] at hr
      | cons d cs => exact hb d cs hc rfl
    have hn : Text.needsEscape c = false := by simp [Text.needsEscape, hc]; exact hq
    simp [Text.escape, hn, ih hr]

theorem spelling_append_rest {cs : List Char} {t : Scanned} (h : scanToken cs = .ok t) :
    t.spelling ++ t.rest = cs := by
  cases cs with
  | nil => simp [scanToken] at h; simp [← h]
  | cons c cs =>
    simp only [scanToken] at h
    split at h
    · simp at h; simp [← h]
    split at h
    · next hc =>
      simp only [scanQuoted] at h
      split at h
      · next hq =>
        simp at h
        simp [← h, hc, Text.escape_append_of_readQuoted hq]
      all_goals simp at h
    split at h
    · next hp =>
      simp only [Except.ok.injEq] at h
      obtain ⟨r, hr⟩ := List.isPrefixOf_iff_prefix.mp hp
      rw [← h, ← hr]
      simp
    split at h
    · simp only [Except.ok.injEq] at h
      simp [← h]
    · simp at h

theorem spelling_ne_nil {cs : List Char} {t : Scanned} (h : scanToken cs = .ok t)
    (ht : t.token ≠ .eof) : t.spelling ≠ [] := by
  cases cs with
  | nil => simp [scanToken] at h; simp [← h] at ht
  | cons c cs =>
    simp only [scanToken] at h
    split at h
    · simp at h; simp [← h]
    split at h
    · simp only [scanQuoted] at h
      split at h
      · simp at h; simp [← h]
      all_goals simp at h
    split at h
    · simp only [Except.ok.injEq] at h
      rw [← h]
      exact List.length_pos_iff.mp (by decide : 0 < nullText.toList.length)
    split at h
    · simp only [Except.ok.injEq] at h
      simp [← h]
    · simp at h

theorem Cursor.length_next {c c' : Cursor} {l : Lexeme} (h : c.next = (.ok l, c'))
    (hl : l.token ≠ .eof) : c'.rest.length < c.rest.length := by
  simp only [Cursor.next] at h
  split at h
  · next t hs =>
    simp only [Prod.mk.injEq, Except.ok.injEq] at h
    obtain ⟨rfl, rfl⟩ := h
    have hn := List.length_pos_iff.mpr (spelling_ne_nil hs hl)
    have ha := congrArg List.length (spelling_append_rest hs)
    have := (List.dropWhile_sublist (Text.isBlank) (l := c.rest)).length_le
    simp only [Text.trimStart, List.length_append] at *; omega
  · simp at h

def Cursor.lexemes (c : Cursor) : Except Fault (List Lexeme) :=
  match h : c.next with
  | (.error f, _) => .error f
  | (.ok l, c') =>
    if hl : l.token = .eof then .ok [l]
    else
      have := Cursor.length_next h hl
      match c'.lexemes with
      | .ok ls => .ok (l :: ls)
      | .error f => .error f
termination_by c.rest.length

theorem Cursor.lexemes_of_error {c c' : Cursor} {f : Fault} (h : c.next = (.error f, c')) :
    c.lexemes = .error f := by
  rw [Cursor.lexemes]
  split
  · next hn =>
    rw [h] at hn
    cases hn
    rfl
  · next hn => rw [h] at hn; cases hn

theorem Cursor.lexemes_of_eof {c c' : Cursor} {l : Lexeme} (h : c.next = (.ok l, c'))
    (hl : l.token = .eof) : c.lexemes = .ok [l] := by
  rw [Cursor.lexemes]
  split
  · next hn => rw [h] at hn; cases hn
  · next hn =>
    rw [h] at hn
    cases hn
    rw [dif_pos hl]

theorem Cursor.lexemes_of_next {c c' : Cursor} {l : Lexeme} (h : c.next = (.ok l, c'))
    (hl : l.token ≠ .eof) : c.lexemes = c'.lexemes.map (l :: ·) := by
  rw [Cursor.lexemes]
  split
  · next hn => rw [h] at hn; cases hn
  · next hn =>
    rw [h] at hn
    cases hn
    rw [dif_neg hl]
    cases c'.lexemes <;> rfl

/-- The tokens of a query, the last of them the end of the query. -/
def tokenize (s : String) : Except Fault (List Lexeme) :=
  (Cursor.ofText s).lexemes

end FilterQuery
