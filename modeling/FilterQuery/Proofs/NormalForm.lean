import FilterQuery.Proofs.Routes

namespace FilterQuery

/-- Whether a query can say a condition as it is. The reserved word is no name and no text. -/
structure Condition.Normal (c : Condition) : Prop where
  property_not_blank : Text.Blank c.property = false
  property_ne : c.property ≠ nullText
  text_ne : .text nullText ∉ c.literal.atoms
  list_ne : c.literal ≠ .list []

/-- Whether clauses are joined one to the other, and a query can say each of them as it is. -/
structure NormalClauses (cs : List Clause) : Prop where
  wellJoined : WellJoined cs
  normal : ∀ c ∈ cs, c.toCondition.Normal

/-! ## What is read is in normal form -/

theorem Spells.ne_quoted_nullText {x : List Char} {t : Token} (h : Spells x t) :
    t ≠ .quoted nullText := by
  rintro rfl
  exact h.eq_quote.2 rfl

/-- The reserved word in quotes is read as an absent value and never as a text. -/
theorem quoted_nullText_not_mem {s : String} {ls : Lexemes} {e : Nat}
    (h : tokenize s = .ok (ls ++ [⟨.eof, e⟩])) : .quoted nullText ∉ Lexemes.tokens ls := by
  obtain ⟨lead, ws, hlayout, _, htokens⟩ := Cursor.exists_layout h
  rw [htokens]
  intro hmem
  obtain ⟨w, hw, htoken⟩ := List.mem_map.mp hmem
  exact (hlayout.spells w hw).ne_quoted_nullText htoken

theorem DerivesAtom.text_ne {t : Token} {a : Atom} (h : DerivesAtom t a)
    (ht : t ≠ .quoted nullText) : a ≠ .text nullText := by
  cases h with
  | text s =>
    rintro ⟨⟩
    exact ht rfl
  | null => simp

theorem DerivesItems.text_not_mem {ts : List Token} {as : List Atom} (h : DerivesItems ts as)
    (hts : .quoted nullText ∉ ts) : .text nullText ∉ as := by
  induction h with
  | last ha =>
    simp only [List.mem_singleton] at hts ⊢
    exact (ha.text_ne (Ne.symm hts)).symm
  | more ha _ ih =>
    simp only [List.mem_cons, not_or] at hts ⊢
    exact ⟨(ha.text_ne (Ne.symm hts.1)).symm, ih hts.2.2⟩

theorem DerivesLiteral.text_not_mem {ts : List Token} {l : Literal} (h : DerivesLiteral ts l)
    (hts : .quoted nullText ∉ ts) : .text nullText ∉ l.atoms := by
  cases h with
  | single ha =>
    simp only [List.mem_singleton, Literal.atoms] at hts ⊢
    exact (ha.text_ne (Ne.symm hts)).symm
  | list hi =>
    simp only [List.mem_cons, List.mem_append, not_or] at hts
    exact hi.text_not_mem hts.2.1

theorem DerivesLiteral.ne_emptyList {ts : List Token} {l : Literal} (h : DerivesLiteral ts l) :
    l ≠ .list [] := by
  rintro rfl
  cases h with
  | list hi => cases hi

theorem DerivesCondition.normal {ts : List Token} {c : Condition} (h : DerivesCondition ts c)
    (hts : .quoted nullText ∉ ts) : c.Normal := by
  cases h with
  | intro op hblank hl =>
    simp only [List.mem_cons, List.mem_append, not_or] at hts
    obtain ⟨-, -, hname, -, hts, -⟩ := hts
    refine ⟨hblank, ?_, hl.text_not_mem hts, hl.ne_emptyList⟩
    rintro rfl
    exact hname rfl

theorem DerivesJoined.normal {ts : List Token} {cs : List Clause} (h : DerivesJoined ts cs)
    (hts : .quoted nullText ∉ ts) : ∀ c ∈ cs, c.toCondition.Normal := by
  induction h with
  | nil => simp
  | cons _ hc _ ih =>
    simp only [List.mem_cons, List.mem_append, not_or] at hts
    exact List.forall_mem_cons.mpr ⟨hc.normal hts.2.1, ih hts.2.2⟩

theorem DerivesQuery.normal {ts : List Token} {cs : List Clause} (h : DerivesQuery ts cs)
    (hts : .quoted nullText ∉ ts) : NormalClauses cs := by
  refine ⟨h.wellJoined, ?_⟩
  cases h with
  | empty => simp
  | clauses hc hj =>
    simp only [List.mem_append, not_or] at hts
    exact List.forall_mem_cons.mpr ⟨hc.normal hts.1, hj.normal hts.2⟩

theorem normalClauses_of_parse {s : String} {cs : List Clause} (h : parse s = .ok cs) :
    NormalClauses cs := by
  obtain ⟨ls, p, hls, hcs⟩ := parse_eq_ok_iff.mp h
  exact hcs.normal (quoted_nullText_not_mem hls)

/-! ## What is in normal form is read back -/

/-- A draft for clauses; the joiner of its first term counts for nothing. -/
def Draft.ofClauses (cs : List Clause) : Draft :=
  ⟨cs.map fun c => ⟨c.toCondition, c.joiner.getD .and⟩⟩

theorem Draft.clauses_ofClauses {cs : List Clause} (h : WellJoined cs) :
    (ofClauses cs).clauses = cs := by
  cases cs with
  | nil => rfl
  | cons c cs =>
    obtain ⟨hfirst, hrest⟩ := forall_getElem?_cons.mp h
    have hc : (⟨c.toCondition, none⟩ : Clause) = c := by
      rw [← hfirst.mpr rfl]
    have hcs : cs.map (fun c => (⟨c.toCondition, some (c.joiner.getD .and)⟩ : Clause)) = cs := by
      apply (List.map_congr_left ?_).trans (List.map_id cs)
      intro d hd
      obtain ⟨k, hk⟩ := List.mem_iff_getElem?.mp hd
      obtain ⟨j, hj⟩ := Option.ne_none_iff_exists'.mp (mt (hrest k d hk).mp (by simp))
      rw [hj, Option.getD_some, ← hj]
      rfl
    simp only [ofClauses, clauses, List.map_cons, List.map_map, Function.comp_def, hc, hcs]

theorem Draft.mem_ofClauses {cs : List Clause} {t : Term} (h : t ∈ (ofClauses cs).terms) :
    ∃ c ∈ cs, c.toCondition = t.toCondition := by
  obtain ⟨c, hc, rfl⟩ := List.mem_map.mp h
  exact ⟨c, hc, rfl⟩

/-- The tokens of a draft for clauses in normal form are a query with these clauses, however the
tokens are laid out. -/
theorem NormalClauses.derives {cs : List Clause} (h : NormalClauses cs) :
    DerivesQuery (Draft.ofClauses cs).tokens cs := by
  have hnormal {t : Term} (ht : t ∈ (Draft.ofClauses cs).terms) : t.toCondition.Normal := by
    obtain ⟨c, hc, hct⟩ := Draft.mem_ofClauses ht
    exact hct ▸ h.normal c hc
  have hread := Draft.readBack_eq_clauses fun t ht => (hnormal ht).text_ne
  rw [Draft.derives_iff, hread, Draft.clauses_ofClauses h.wellJoined]
  refine ⟨?_, rfl⟩
  intro t ht
  exact ⟨(hnormal ht).property_not_blank, (hnormal ht).property_ne, (hnormal ht).list_ne⟩

theorem NormalClauses.parse_render {cs : List Clause} (h : NormalClauses cs) :
    parse (renderClauses cs) = .ok cs := by
  have hreads := Reads.draft (Draft.ofClauses cs)
  rw [Draft.render, Draft.clauses_ofClauses h.wellJoined] at hreads
  exact (parse_eq_ok_iff_of_reads hreads).mpr h.derives

theorem normalClauses_iff {cs : List Clause} :
    NormalClauses cs ↔ parse (renderClauses cs) = .ok cs :=
  ⟨NormalClauses.parse_render, normalClauses_of_parse⟩

/-- The clauses that texts are read as are those in normal form, and each list of them is read
back from the text that is written for it. Texts are read alike if and only if what is written for
their clauses is the same text. -/
theorem parse_normal_form :
    (∀ cs, (∃ s, parse s = .ok cs) ↔ NormalClauses cs) ∧
    (∀ cs, parse (renderClauses cs) = .ok cs ↔ NormalClauses cs) ∧
    (∀ s cs, parse s = .ok cs → parse (renderClauses cs) = .ok cs) ∧
    ∀ s t cs ds, parse s = .ok cs → parse t = .ok ds →
      (cs = ds ↔ renderClauses cs = renderClauses ds) := by
  have hagain {s : String} {cs : List Clause} (h : parse s = .ok cs) :
      parse (renderClauses cs) = .ok cs :=
    (normalClauses_of_parse h).parse_render
  refine ⟨?_, fun _ => normalClauses_iff.symm, fun _ _ => hagain, ?_⟩
  · intro cs
    apply Iff.intro
    · intro h
      obtain ⟨s, hs⟩ := h
      exact normalClauses_of_parse hs
    · intro h
      exact ⟨renderClauses cs, h.parse_render⟩
  · intro s t cs ds hs ht
    apply Iff.intro
    · rintro rfl
      rfl
    · intro h
      have hds := hagain ht
      rw [← h, hagain hs] at hds
      exact Except.ok.inj hds

/-- Two queries that differ in a joiner; one of them has the reserved word in quotes. -/
theorem parse_normal_form_spellings :
    let s := "eq('a','\\'') OR cov ( 'b' , ['x','$!NULL!$'] )"
    let t := "eq('a', '\\'')and cov('b', ['x', $!NULL!$])"
    let cs : List Clause :=
      [⟨⟨.equal, "a", .single (.text "'")⟩, none⟩,
        ⟨⟨.oneOf, "b", .list [.text "x", .null]⟩, some .or⟩]
    let ds : List Clause :=
      [⟨⟨.equal, "a", .single (.text "'")⟩, none⟩,
        ⟨⟨.oneOf, "b", .list [.text "x", .null]⟩, some .and⟩]
    parse s = .ok cs ∧ parse t = .ok ds ∧ NormalClauses cs ∧ parse (renderClauses cs) = .ok cs ∧
      renderClauses cs ≠ renderClauses ds := by
  intro s t cs ds
  have hs : parse s = .ok cs := by decide +kernel
  have ht : parse t = .ok ds := by decide +kernel
  have hne : cs ≠ ds := by decide
  obtain ⟨himage, _, hagain, hsame⟩ := parse_normal_form
  exact ⟨hs, ht, (himage cs).mp ⟨s, hs⟩, hagain s cs hs,
    fun h => hne ((hsame s t cs ds hs ht).mpr h)⟩

end FilterQuery
