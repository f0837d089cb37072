import FilterQuery.Proofs.Advance
import FilterQuery.Proofs.Printing

namespace FilterQuery

/-! ## Where a quotation ends -/

namespace Text

/-- A text cannot begin with two quotations, nor go on in two ways after one. -/
theorem quote_append_inj {s t : String} {as bs : List Char}
    (h : (quote s).toList ++ as = (quote t).toList ++ bs) : s = t ∧ as = bs := by
  have hinside : escape s.toList ++ '\'' :: as = escape t.toList ++ '\'' :: bs := by
    simpa [quote] using h
  have hread := readQuoted_escape s.toList as
  rw [hinside, readQuoted_escape, Except.ok.injEq, Prod.mk.injEq] at hread
  exact ⟨String.toList_inj.mp hread.1.symm, hread.2.symm⟩

theorem quote_injective : Function.Injective quote := by
  intro s t h
  have hends : (quote s).toList ++ [] = (quote t).toList ++ [] := by rw [h]
  exact (quote_append_inj hends).1

theorem eq_of_quote_prefix {s t : String} (h : (quote s).toList <+: (quote t).toList) :
    s = t := by
  obtain ⟨rest, hrest⟩ := h
  rw [← List.append_nil (quote t).toList] at hrest
  exact (quote_append_inj hrest).1

end Text

namespace Cursor

theorem next_quote (s : String) (rest : List Char) (p : Nat) :
    (⟨(Text.quote s).toList ++ rest, p⟩ : Cursor).next =
      (.ok ⟨Token.ofQuoted s, p⟩, ⟨rest, p + Text.byteLength (Text.quote s).toList⟩) :=
  next_spells (.ofQuoted s) (.ofQuoted s rest)

theorem Advances.eq_quote {c c' : Cursor} {s : String} {p : Nat}
    (h : Advances c (.ok ⟨.quoted s, p⟩) c') :
    s ≠ nullText ∧ c'.position = p + Text.byteLength (Text.quote s).toList ∧
      ∃ lead, c.rest = lead ++ ((Text.quote s).toList ++ c'.rest) ∧
        p = c.position + Text.byteLength lead := by
  cases h with
  | @token lead x rest _ _ _ hspell =>
    obtain ⟨rfl, hs⟩ := hspell.eq_quote
    exact ⟨hs, rfl, lead, rfl, rfl⟩

/-- A quotation tells where it ends: whatever comes after it, reading stops there. What reads as a
quoted text, at any place of any query, is the quotation of that text and nothing more. So no
quotation is the beginning of another. -/
theorem quote_delimits_itself :
    (∀ s r : String, (ofText (Text.quote s ++ r)).next =
      (.ok ⟨if s = nullText then .null else .quoted s, 0⟩,
        ⟨r.toList, Text.byteLength (Text.quote s).toList⟩)) ∧
    (∀ source n s p, (ofText source).call n = .ok ⟨.quoted s, p⟩ →
      s ≠ nullText ∧ ∃ before after : String, source = before ++ Text.quote s ++ after ∧
        p = Text.byteLength before.toList ∧
        (ofText source).after (n + 1) =
          ⟨after.toList, p + Text.byteLength (Text.quote s).toList⟩) ∧
    Function.Injective Text.quote ∧
    ∀ s t, (Text.quote s).toList <+: (Text.quote t).toList → s = t := by
  refine ⟨?_, ?_, Text.quote_injective, fun _ _ => Text.eq_of_quote_prefix⟩
  · intro s r
    rw [ofText, String.toList_append, next_quote, Nat.zero_add, Token.ofQuoted]
  · intro source n s p h
    have hstep := advances_after (ofText source) n
    rw [h] at hstep
    obtain ⟨hs, hend, lead, hrest, hp⟩ := hstep.eq_quote
    obtain ⟨passed, hsource, hpassed⟩ := within_after (within_ofText source) n
    rw [hrest] at hsource
    refine ⟨hs, .ofList (passed ++ lead), .ofList ((ofText source).after (n + 1)).rest, ?_, ?_, ?_⟩
    · apply String.toList_inj.mp
      simp [hsource]
    · simp [hp, hpassed]
    · rw [String.toList_ofList, ← hend]

/-- A lone backslash in quotes, and after it a quotation that does not end. -/
theorem quote_delimits_itself_backslash :
    let source := " '\\\\' 'x"
    (ofText source).call 0 = .ok ⟨.quoted "\\", 1⟩ ∧
      ∃ before after : String, source = before ++ Text.quote "\\" ++ after ∧
        1 = Text.byteLength before.toList ∧
        (ofText source).after 1 = ⟨after.toList, 1 + Text.byteLength (Text.quote "\\").toList⟩ := by
  intro source
  have hcall : (ofText source).call 0 = .ok ⟨.quoted "\\", 1⟩ := by decide
  exact ⟨hcall, (quote_delimits_itself.2.1 source 0 "\\" 1 hcall).2⟩

end Cursor

end FilterQuery
