import FilterQuery.Proofs.Spelling
import FilterQuery.Query.Draft

namespace FilterQuery

/-! ## The tokens of what is written -/

def Token.ofQuoted (s : String) : Token :=
  if s = nullText then .null else .quoted s

def Atom.token : Atom → Token
  | .text s => .ofQuoted s
  | .null => .null

namespace Literal

def itemTokens : List Atom → List Token
  | [] => []
  | [a] => [a.token]
  | a :: as => a.token :: .comma :: itemTokens as

def tokens : Literal → List Token
  | .single a => [a.token]
  | .list as => .openBracket :: (itemTokens as ++ [.closeBracket])

end Literal

def Condition.tokens (c : Condition) : List Token :=
  .word c.op.tag :: .openParen :: .ofQuoted c.property :: .comma ::
    (c.literal.tokens ++ [.closeParen])

def joinedTokens : List Term → List Token
  | [] => []
  | t :: ts => .word t.joiner.keyword :: (t.toCondition.tokens ++ joinedTokens ts)

def Draft.tokens (d : Draft) : List Token :=
  match d.terms with
  | [] => []
  | t :: ts => t.toCondition.tokens ++ joinedTokens ts

theorem Spells.ofQuoted (s : String) : Spells (Text.quote s).toList (.ofQuoted s) := by
  unfold Token.ofQuoted
  split
  · next hs =>
    subst hs
    exact .quotedNull
  · next hs => exact .quoted hs

/-- Anything can follow a quotation. -/
theorem Delimits.ofQuoted (s : String) (rest : List Char) : Delimits rest (.ofQuoted s) := by
  intro w hw
  unfold Token.ofQuoted at hw
  split at hw <;> cases hw

theorem Joiner.word_keyword (j : Joiner) :
    j.keyword ≠ "" ∧ j.keyword.toList.all isWordChar = true := by
  cases j <;> decide

namespace Reads

variable {rest : List Char} {ts : List Token}

theorem mark {c : Char} {t : Token} (hc : Token.ofMark? c = some t) (h : Reads rest ts) :
    Reads (c :: rest) (t :: ts) := by
  apply h.cons (.mark hc)
  intro w hw
  exact absurd hw ((Token.ofMark?_eq_some hc).2.2.2 w)

theorem word {s : String} (hne : s ≠ "") (hs : s.toList.all isWordChar = true)
    (hrest : ∀ c ∈ rest.head?, isWordChar c = false) (h : Reads rest ts) :
    Reads (s.toList ++ rest) (.word s :: ts) := by
  have hspell : Spells s.toList (.word s) := by
    simpa using Spells.word (by simpa using hne) (List.all_eq_true.mp hs)
  exact h.cons hspell fun _ _ => hrest

theorem quoted (s : String) (h : Reads rest ts) :
    Reads ((Text.quote s).toList ++ rest) (.ofQuoted s :: ts) :=
  h.cons (.ofQuoted s) (.ofQuoted s rest)

theorem atom (a : Atom) (h : Reads rest ts) :
    Reads (a.render.toList ++ rest) (a.token :: ts) := by
  cases a with
  | text s => exact h.quoted s
  | null => exact h.cons .null (by intro w hw; cases hw)

theorem items (as : List Atom) (h : Reads rest ts) :
    Reads ((Literal.renderAtoms as).toList ++ rest) (Literal.itemTokens as ++ ts) := by
  fun_induction Literal.renderAtoms as with
  | case1 => exact h
  | case2 a => exact h.atom a
  | case3 a as hne ih =>
    have htail := ((ih.blank (c := ' ') (by decide)).mark (c := ',') rfl).atom a
    simpa [Literal.itemTokens] using htail

theorem literal (l : Literal) (h : Reads rest ts) :
    Reads (l.render.toList ++ rest) (l.tokens ++ ts) := by
  cases l with
  | single a => exact h.atom a
  | list as =>
    have hitems := ((h.mark (c := ']') rfl).items as).mark (c := '[') rfl
    simpa [Literal.render, Literal.tokens] using hitems

theorem tag (op : Operator) (hrest : ∀ c ∈ rest.head?, isWordChar c = false)
    (h : Reads rest ts) : Reads (op.tag.toList ++ rest) (.word op.tag :: ts) := by
  have hop : op.tag ≠ "" ∧ op.tag.toList.all isWordChar = true := by
    cases op with
    | order r => cases r <;> decide
    | _ => decide
  exact h.word hop.1 hop.2 hrest

theorem condition (c : Condition) (h : Reads rest ts) :
    Reads (c.render.toList ++ rest) (c.tokens ++ ts) := by
  have hliteral := (h.mark (c := ')') rfl).literal c.literal
  have hname := ((hliteral.blank (c := ' ') (by decide)).mark (c := ',') rfl).quoted c.property
  have htag := (hname.mark (c := '(') rfl).tag c.op (by simp; decide)
  simpa [Condition.render, Condition.tokens] using htag

theorem joined (ts : List Term) :
    Reads (renderClauses (ts.map fun t => ⟨t.toCondition, some t.joiner⟩)).toList
      (joinedTokens ts) := by
  induction ts with
  | nil => exact .nil
  | cons t ts ih =>
    have hcondition := (ih.condition t.toCondition).blank (c := ' ') (by decide)
    obtain ⟨hne, hall⟩ := t.joiner.word_keyword
    have hword := (hcondition.word hne hall (by simp; decide)).blank (c := ' ') (by decide)
    simpa [renderClauses, joinedTokens, Clause.render] using hword

theorem draft (d : Draft) : Reads d.render.toList d.tokens := by
  obtain ⟨terms⟩ := d
  cases terms with
  | nil => exact .nil
  | cons t ts =>
    simpa [Draft.render, Draft.clauses, Draft.tokens, renderClauses, Clause.render] using
      (joined ts).condition t.toCondition

end Reads

/-! ## What can be read back -/

/-- A value as it is read back: the reserved word stands for an absent value, also in quotes. -/
def Atom.readBack : Atom → Atom
  | .text s => if s = nullText then .null else .text s
  | .null => .null

def Literal.readBack : Literal → Literal
  | .single a => .single a.readBack
  | .list as => .list (as.map Atom.readBack)

def Condition.readBack (c : Condition) : Condition :=
  { c with literal := c.literal.readBack }

/-- Whether the text of a condition is one that can be read. -/
def Condition.Readable (c : Condition) : Prop :=
  Text.Blank c.property = false ∧ c.property ≠ nullText ∧ c.literal ≠ .list []

theorem Atom.derives (a : Atom) : DerivesAtom a.token a.readBack := by
  cases a with
  | null => exact .null
  | text s =>
    by_cases hs : s = nullText
    · simpa [Atom.token, Token.ofQuoted, Atom.readBack, hs] using DerivesAtom.null
    · simpa [Atom.token, Token.ofQuoted, Atom.readBack, hs] using DerivesAtom.text s

theorem derives_items {as : List Atom} (h : as ≠ []) :
    DerivesItems (Literal.itemTokens as) (as.map Atom.readBack) := by
  fun_induction Literal.itemTokens as with
  | case1 => exact absurd rfl h
  | case2 a => exact .last a.derives
  | case3 a as hne ih => exact .more a.derives (ih hne)

theorem Literal.derives {l : Literal} (h : l ≠ .list []) :
    DerivesLiteral l.tokens l.readBack := by
  cases l with
  | single a => exact .single a.derives
  | list as =>
    have hne : as ≠ [] := by
      rintro rfl
      exact h rfl
    exact .list (derives_items hne)

theorem Condition.Readable.derives {c : Condition} (h : c.Readable) :
    DerivesCondition c.tokens c.readBack := by
  obtain ⟨hblank, hnull, hlist⟩ := h
  have hname : Token.ofQuoted c.property = .quoted c.property := if_neg hnull
  unfold Condition.tokens
  rw [hname]
  exact .intro c.op hblank (Literal.derives hlist)

theorem derives_joined {ts : List Term} (h : ∀ t ∈ ts, t.toCondition.Readable) :
    DerivesJoined (joinedTokens ts)
      (ts.map fun t => ⟨t.toCondition.readBack, some t.joiner⟩) := by
  induction ts with
  | nil => exact .nil
  | cons t ts ih =>
    have hkeyword : Text.sameIgnoringCase t.joiner.keyword t.joiner.keyword = true := by
      simp [Text.sameIgnoringCase]
    exact .cons hkeyword (h t (by simp)).derives (ih fun u hu => h u (by simp [hu]))

theorem Literal.inLiteral (l : Literal) : ∀ t ∈ l.tokens, t.InLiteral := by
  by_cases h : l = .list []
  · subst h
    simp [Literal.tokens, Literal.itemTokens, Token.InLiteral]
  · exact (Literal.derives h).inLiteral

theorem append_closeParen_inj {ts us vs ws : List Token} (ht : ∀ t ∈ ts, t.InLiteral)
    (hu : ∀ t ∈ us, t.InLiteral)
    (h : ts ++ .closeParen :: vs = us ++ .closeParen :: ws) : ts = us ∧ vs = ws := by
  induction ts generalizing us with
  | nil =>
    cases us with
    | nil => simpa using h
    | cons u us =>
      cases h
      exact (hu .closeParen (by simp)).elim
  | cons t ts ih =>
    cases us with
    | nil =>
      cases h
      exact (ht .closeParen (by simp)).elim
    | cons u us =>
      simp only [List.cons_append, List.cons.injEq] at h
      obtain ⟨hts, hvs⟩ := ih (fun t h => ht t (by simp [h])) (fun t h => hu t (by simp [h])) h.2
      exact ⟨by rw [h.1, hts], hvs⟩

theorem not_derives_emptyList {l : Literal} :
    ¬ DerivesLiteral [.openBracket, .closeBracket] l := by
  intro h
  generalize hts : [Token.openBracket, .closeBracket] = ts at h
  cases h with
  | single ha => simp at hts
  | @list us as hi =>
    cases hi with
    | last => simp at hts
    | more => simp at hts

theorem DerivesCondition.readable {c d : Condition} {ts us vs : List Token}
    (hd : DerivesCondition ts d) (h : ts ++ us = c.tokens ++ vs) : c.Readable ∧ us = vs := by
  cases hd with
  | intro op hblank hl =>
    simp only [Condition.tokens, List.cons_append, List.append_assoc, List.nil_append,
      List.cons.injEq, Token.word.injEq, true_and] at h
    obtain ⟨-, hname, h⟩ := h
    obtain ⟨hlits, hrest⟩ := append_closeParen_inj hl.inLiteral c.literal.inLiteral h
    unfold Token.ofQuoted at hname
    split at hname
    · cases hname
    · next hnull =>
      cases hname
      refine ⟨⟨hblank, hnull, ?_⟩, hrest⟩
      intro hlist
      rw [hlits, hlist] at hl
      exact not_derives_emptyList hl

theorem DerivesJoined.readable {ts : List Term} {cs : List Clause}
    (h : DerivesJoined (joinedTokens ts) cs) : ∀ t ∈ ts, t.toCondition.Readable := by
  induction ts generalizing cs with
  | nil => simp
  | cons t ts ih =>
    generalize hts : joinedTokens (t :: ts) = us at h
    cases h with
    | nil => simp [joinedTokens] at hts
    | cons hk hc hj =>
      obtain ⟨ht, rfl⟩ := hc.readable (List.cons.inj hts).2.symm
      simp only [List.mem_cons, forall_eq_or_imp]
      exact ⟨ht, ih hj⟩

/-- The clauses that a draft is read back as. -/
def Draft.readBack (d : Draft) : List Clause :=
  d.terms.mapIdx fun i t => ⟨t.toCondition.readBack, if i = 0 then none else some t.joiner⟩

theorem Draft.derives_iff {d : Draft} {cs : List Clause} :
    DerivesQuery d.tokens cs ↔
      (∀ t ∈ d.terms, t.toCondition.Readable) ∧ cs = d.readBack := by
  have hsound (h : ∀ t ∈ d.terms, t.toCondition.Readable) : DerivesQuery d.tokens d.readBack := by
    obtain ⟨terms⟩ := d
    cases terms with
    | nil => exact .empty
    | cons t ts =>
      have ht := (h t (by simp)).derives
      have hts : DerivesJoined (joinedTokens ts) _ :=
        derives_joined fun u hu => h u (List.mem_cons_of_mem t hu)
      have hmap : (⟨t :: ts⟩ : Draft).readBack =
          ⟨t.toCondition.readBack, none⟩ ::
            ts.map fun t => ⟨t.toCondition.readBack, some t.joiner⟩ := by
        simp only [Draft.readBack, List.mapIdx_cons]
        exact congrArg _ (List.ext_getElem (by simp) (by simp))
      rw [hmap]
      exact .clauses ht hts
  apply Iff.intro
  · intro h
    have hread : ∀ t ∈ d.terms, t.toCondition.Readable := by
      obtain ⟨terms⟩ := d
      cases terms with
      | nil => simp
      | cons t ts =>
        generalize hts : Draft.tokens ⟨t :: ts⟩ = us at h
        cases h with
        | empty => simp [Draft.tokens, Condition.tokens] at hts
        | clauses hc hj =>
          obtain ⟨ht, rfl⟩ := hc.readable hts.symm
          simp only [List.mem_cons, forall_eq_or_imp]
          exact ⟨ht, hj.readable⟩
    exact ⟨hread, h.unique (hsound hread)⟩
  · intro h
    obtain ⟨h, rfl⟩ := h
    exact hsound h

theorem parse_render_eq_ok_iff {d : Draft} {cs : List Clause} :
    parse d.render = .ok cs ↔
      (∀ t ∈ d.terms, t.toCondition.Readable) ∧ cs = d.readBack := by
  rw [parse_eq_ok_iff_of_reads (Reads.draft d), Draft.derives_iff]

/-- The text of a draft has one reading at most: a clause for each term, in their order and joined
as they are, whatever the names and values contain. Only the reserved word is read as something
else than it was. -/
theorem parse_render_iff (d : Draft) (cs : List Clause) :
    parse d.render = .ok cs ↔
      (∀ t ∈ d.terms, Text.Blank t.property = false ∧ t.property ≠ nullText ∧
        t.literal ≠ .list []) ∧
      cs = d.terms.mapIdx fun i t =>
        ⟨⟨t.op, t.property, t.literal.readBack⟩, if i = 0 then none else some t.joiner⟩ :=
  parse_render_eq_ok_iff

end FilterQuery
