import FilterQuery.Query.Parse

namespace FilterQuery

/-! ## The grammar -/

/-- A token that writes a value inside a literal. -/
inductive DerivesAtom : Token → Atom → Prop
  | text (s : String) : DerivesAtom (.quoted s) (.text s)
  | null : DerivesAtom .null .null

/-- One or more values with a comma between each two. -/
inductive DerivesItems : List Token → List Atom → Prop
  | last {t : Token} {a : Atom} : DerivesAtom t a → DerivesItems [t] [a]
  | more {t : Token} {a : Atom} {ts : List Token} {as : List Atom} :
      DerivesAtom t a → DerivesItems ts as → DerivesItems (t :: .comma :: ts) (a :: as)

/-- A value alone, or values in brackets. -/
inductive DerivesLiteral : List Token → Literal → Prop
  | single {t : Token} {a : Atom} : DerivesAtom t a → DerivesLiteral [t] (.single a)
  | list {ts : List Token} {as : List Atom} : DerivesItems ts as →
      DerivesLiteral (.openBracket :: (ts ++ [.closeBracket])) (.list as)

/-- A tag, and in parentheses the name of a property and a literal. -/
inductive DerivesCondition : List Token → Condition → Prop
  | intro (op : Operator) {name : String} {ts : List Token} {l : Literal} :
      Text.Blank name = false → DerivesLiteral ts l →
      DerivesCondition
        (.word op.tag :: .openParen :: .quoted name :: .comma :: (ts ++ [.closeParen]))
        ⟨op, name, l⟩

/-- Conditions with a joiner before each of them. -/
inductive DerivesJoined : List Token → List Clause → Prop
  | nil : DerivesJoined [] []
  | cons {w : String} {j : Joiner} {ts us : List Token} {c : Condition} {cs : List Clause} :
      Text.sameIgnoringCase w j.keyword = true → DerivesCondition ts c → DerivesJoined us cs →
      DerivesJoined (.word w :: (ts ++ us)) (⟨c, some j⟩ :: cs)

/-- Nothing, or a condition and joined ones after it. -/
inductive DerivesQuery : List Token → List Clause → Prop
  | empty : DerivesQuery [] []
  | clauses {ts us : List Token} {c : Condition} {cs : List Clause} :
      DerivesCondition ts c → DerivesJoined us cs → DerivesQuery (ts ++ us) (⟨c, none⟩ :: cs)

def Token.InList : Token → Prop
  | .quoted _ | .null | .comma => True
  | _ => False

theorem DerivesAtom.inList {t : Token} {a : Atom} (h : DerivesAtom t a) : t.InList := by
  cases h <;> trivial

theorem DerivesItems.inList {ts : List Token} {as : List Atom} (h : DerivesItems ts as) :
    ∀ t ∈ ts, t.InList := by
  induction h with
  | last ha => simpa using ha.inList
  | more ha _ ih =>
    simp only [List.mem_cons, forall_eq_or_imp]
    exact ⟨ha.inList, trivial, ih⟩

def Token.InLiteral : Token → Prop
  | .quoted _ | .null | .comma | .openBracket | .closeBracket => True
  | _ => False

theorem Token.InList.inLiteral {t : Token} (h : t.InList) : t.InLiteral := by
  cases t <;> first | exact h.elim | trivial

theorem DerivesAtom.inLiteral {t : Token} {a : Atom} (h : DerivesAtom t a) : t.InLiteral :=
  h.inList.inLiteral

theorem DerivesItems.inLiteral {ts : List Token} {as : List Atom} (h : DerivesItems ts as) :
    ∀ t ∈ ts, t.InLiteral :=
  fun t ht => (h.inList t ht).inLiteral

theorem DerivesLiteral.inLiteral {ts : List Token} {l : Literal} (h : DerivesLiteral ts l) :
    ∀ t ∈ ts, t.InLiteral := by
  cases h with
  | single ha => simpa using ha.inLiteral
  | list hi =>
    simp only [List.mem_cons, List.mem_append, List.mem_nil_iff, or_false]
    rintro t (rfl | ht | rfl)
    · trivial
    · exact hi.inLiteral t ht
    · trivial

theorem DerivesCondition.eof_not_mem {ts : List Token} {c : Condition}
    (h : DerivesCondition ts c) : .eof ∉ ts := by
  cases h with
  | @intro op name ts l hname hl =>
    have heof : .eof ∉ ts := hl.inLiteral .eof
    simp [heof]

theorem DerivesJoined.eof_not_mem {ts : List Token} {cs : List Clause} (h : DerivesJoined ts cs) :
    .eof ∉ ts := by
  induction h with
  | nil => simp
  | cons _ hc _ ih => simp [hc.eof_not_mem, ih]

theorem DerivesQuery.eof_not_mem {ts : List Token} {cs : List Clause} (h : DerivesQuery ts cs) :
    .eof ∉ ts := by
  cases h with
  | empty => simp
  | clauses hc hj => simp [hc.eof_not_mem, hj.eof_not_mem]

/-! ## What each reader accepts -/

theorem Operator.tag_of_ofTag? {w : String} {op : Operator} (h : Operator.ofTag? w = some op) :
    op.tag = w := by
  simpa using List.find?_some h

theorem Joiner.ofKeyword?_tag (op : Operator) : Joiner.ofKeyword? op.tag = none := by
  cases op with
  | order r => cases r <;> decide
  | _ => decide

theorem Joiner.ofKeyword?_eq_some_iff {w : String} {j : Joiner} :
    Joiner.ofKeyword? w = some j ↔ Text.sameIgnoringCase w j.keyword = true := by
  unfold Joiner.ofKeyword?
  split
  · next h =>
    cases j with
    | and => simpa [Joiner.keyword] using h
    | or =>
      simp only [Text.sameIgnoringCase, beq_iff_eq] at h
      simp [Text.sameIgnoringCase, Joiner.keyword, h]
      decide
  · next h =>
    cases j with
    | and => simpa [Joiner.keyword] using h
    | or => simp [Joiner.keyword]

theorem ofToken?_eq_some_iff {t : Token} {a : Atom} :
    Atom.ofToken? t = some a ↔ DerivesAtom t a := by
  apply Iff.intro
  · intro h
    cases t <;> simp [Atom.ofToken?] at h <;> subst h <;> constructor
  · intro h
    cases h <;> rfl

namespace Lexemes

def tokens (ls : Lexemes) : List Token := ls.map (·.token)

@[simp] theorem tokens_nil : tokens [] = [] := rfl

@[simp] theorem tokens_cons (l : Lexeme) (ls : Lexemes) : tokens (l :: ls) = l.token :: tokens ls :=
  rfl

@[simp] theorem tokens_append (ls ms : Lexemes) : tokens (ls ++ ms) = tokens ls ++ tokens ms :=
  List.map_append

theorem tokens_eq_cons_iff {ls : Lexemes} {t : Token} {ts : List Token} :
    tokens ls = t :: ts ↔ ∃ p more, ls = ⟨t, p⟩ :: more ∧ tokens more = ts := by
  apply Iff.intro
  · intro h
    obtain ⟨⟨_, p⟩, more, rfl, rfl, hts⟩ := List.map_eq_cons_iff.mp h
    exact ⟨p, more, rfl, hts⟩
  · intro h
    obtain ⟨p, more, rfl, rfl⟩ := h
    rfl

theorem tokens_eq_append_iff {ls : Lexemes} {ts us : List Token} :
    tokens ls = ts ++ us ↔ ∃ ms ns, ls = ms ++ ns ∧ tokens ms = ts ∧ tokens ns = us :=
  List.map_eq_append_iff

theorem tokens_eq_nil_iff {ls : Lexemes} : tokens ls = [] ↔ ls = [] := List.map_eq_nil_iff

theorem operator_eq_ok_iff {first : Bool} {ls rest : Lexemes} {op : Operator} :
    operator first ls = .ok (op, rest) ↔ ∃ p, ls = ⟨.word op.tag, p⟩ :: rest := by
  apply Iff.intro
  · intro h
    unfold operator at h
    split at h
    · next w p more =>
      split at h
      · simp at h
      split at h
      · next op' hop =>
        cases h
        exact ⟨p, by rw [Operator.tag_of_ofTag? hop]⟩
      · simp at h
    · simp [reject] at h
  · intro h
    obtain ⟨p, rfl⟩ := h
    simp [operator, Joiner.ofKeyword?_tag]

theorem expect_eq_ok_iff {t : Token} {problem : Token → Problem} {ls rest : Lexemes} :
    expect t problem ls = .ok rest ↔ ∃ p, ls = ⟨t, p⟩ :: rest := by
  apply Iff.intro
  · intro h
    unfold expect at h
    split at h
    · next l more =>
      split at h
      · next ht =>
        cases h
        exact ⟨l.position, by rw [← ht]⟩
      · simp [reject] at h
    · simp [reject] at h
  · intro h
    obtain ⟨p, rfl⟩ := h
    simp [expect]

theorem property_eq_ok_iff {ls rest : Lexemes} {name : String} :
    property ls = .ok (name, rest) ↔
      Text.Blank name = false ∧ ∃ p, ls = ⟨.quoted name, p⟩ :: rest := by
  apply Iff.intro
  · intro h
    unfold property at h
    split at h
    · next name' p more =>
      split at h
      · simp at h
      · next hb =>
        cases h
        exact ⟨by simpa using hb, p, rfl⟩
    · simp [reject] at h
  · intro h
    obtain ⟨hb, p, rfl⟩ := h
    simp [property, hb]

theorem items_sound {opening : Nat} {ls rest : Lexemes} {as : List Atom}
    (h : items opening ls = .ok (as, rest)) :
    ∃ taken p, ls = taken ++ ⟨.closeBracket, p⟩ :: rest ∧ DerivesItems (tokens taken) as := by
  fun_induction items opening ls generalizing as rest with
  | case1 => simp [reject] at h
  | case2 => simp [reject] at h
  | case3 l a ha p more as' rest' hi ih =>
    cases h
    obtain ⟨taken, q, rfl, hd⟩ := ih hi
    exact ⟨l :: ⟨.comma, _⟩ :: taken, q, rfl, .more (ofToken?_eq_some_iff.mp ha) hd⟩
  | case4 => simp at h
  | case5 l a ha p more =>
    cases h
    exact ⟨[l], _, rfl, .last (ofToken?_eq_some_iff.mp ha)⟩
  | case6 => simp at h
  | case7 => simp at h
  | case8 => simp at h

theorem items_complete {opening p : Nat} {taken rest : Lexemes} {as : List Atom}
    (h : DerivesItems (tokens taken) as) :
    items opening (taken ++ ⟨.closeBracket, p⟩ :: rest) = .ok (as, rest) := by
  generalize hts : tokens taken = ts at h
  induction h generalizing taken with
  | last ha =>
    simp only [tokens_eq_cons_iff, tokens_eq_nil_iff] at hts
    obtain ⟨q, _, rfl, rfl⟩ := hts
    simp [items, ofToken?_eq_some_iff.mpr ha]
  | more ha _ ih =>
    simp only [tokens_eq_cons_iff] at hts
    obtain ⟨q, _, rfl, r, more, rfl, hmore⟩ := hts
    simp [items, ofToken?_eq_some_iff.mpr ha, ih hmore]

theorem literal_eq_ok_iff {ls rest : Lexemes} {l : Literal} :
    literal ls = .ok (l, rest) ↔
      ∃ taken, ls = taken ++ rest ∧ DerivesLiteral (tokens taken) l := by
  apply Iff.intro
  · intro h
    unfold literal at h
    split at h
    · next p more =>
      split at h
      · next hi =>
        cases h
        obtain ⟨taken, q, rfl, hd⟩ := items_sound hi
        exact ⟨⟨.openBracket, p⟩ :: (taken ++ [⟨.closeBracket, q⟩]), by simp,
          by simpa using DerivesLiteral.list hd⟩
      · simp at h
    · split at h
      · next a ha =>
        cases h
        cases ls with
        | nil => simp [head, Atom.ofToken?] at ha
        | cons l ls => exact ⟨[l], rfl, .single (ofToken?_eq_some_iff.mp ha)⟩
      · simp [reject] at h
  · intro h
    obtain ⟨taken, rfl, h⟩ := h
    generalize hts : tokens taken = ts at h
    cases h with
    | single ha =>
      simp only [tokens_eq_cons_iff, tokens_eq_nil_iff] at hts
      obtain ⟨p, _, rfl, rfl⟩ := hts
      cases ha <;> simp [literal, head, Atom.ofToken?]
    | list hi =>
      simp only [tokens_eq_cons_iff, tokens_eq_append_iff, tokens_eq_nil_iff] at hts
      obtain ⟨p, _, rfl, taken, _, rfl, rfl, q, _, rfl, rfl⟩ := hts
      simp [literal, items_complete hi]

theorem condition_eq_ok_iff {first : Bool} {ls rest : Lexemes} {c : Condition} :
    condition first ls = .ok (c, rest) ↔
      ∃ taken, ls = taken ++ rest ∧ DerivesCondition (tokens taken) c := by
  simp only [condition, bind_eq_ok_iff, Prod.exists, operator_eq_ok_iff, expect_eq_ok_iff,
    property_eq_ok_iff, literal_eq_ok_iff]
  apply Iff.intro
  · intro h
    obtain ⟨op, _, ⟨p₁, rfl⟩, _, ⟨p₂, rfl⟩, name, _, ⟨hname, p₃, rfl⟩, _, ⟨p₄, rfl⟩, l, _,
      ⟨taken, rfl, hl⟩, _, ⟨p₅, rfl⟩, h⟩ := h
    cases h
    exact ⟨⟨.word op.tag, p₁⟩ :: ⟨.openParen, p₂⟩ :: ⟨.quoted name, p₃⟩ :: ⟨.comma, p₄⟩ ::
      (taken ++ [⟨.closeParen, p₅⟩]), by simp, by simpa using DerivesCondition.intro op hname hl⟩
  · intro h
    obtain ⟨taken, rfl, h⟩ := h
    generalize hts : tokens taken = ts at h
    cases h with
    | intro op hname hl =>
      simp only [tokens_eq_cons_iff, tokens_eq_append_iff, tokens_eq_nil_iff] at hts
      obtain ⟨p₁, _, rfl, p₂, _, rfl, p₃, _, rfl, p₄, _, rfl, taken, _, rfl, rfl, p₅, _, rfl,
        rfl⟩ := hts
      exact ⟨op, _, ⟨p₁, rfl⟩, _, ⟨p₂, rfl⟩, _, _, ⟨hname, p₃, rfl⟩, _, ⟨p₄, rfl⟩, _, _,
        ⟨taken, by simp, hl⟩, rest, ⟨p₅, rfl⟩, rfl⟩

end Lexemes

theorem DerivesCondition.create {ts : List Token} {c : Condition} (h : DerivesCondition ts c)
    (joiner : Option Joiner) : Clause.create joiner c = .ok ⟨c, joiner⟩ := by
  cases h with
  | intro op hname hl =>
    rw [Clause.create, if_neg (by simp [hname]), if_neg]
    intro he
    subst he
    cases hl with
    | list hi => cases hi

namespace Lexemes

theorem clause_eq_ok_iff {source : String} {joiner : Option Joiner} {ls rest : Lexemes}
    {c : Clause} :
    clause source joiner ls = .ok (c, rest) ↔ c.joiner = joiner ∧
      ∃ taken, ls = taken ++ rest ∧ DerivesCondition (tokens taken) c.toCondition := by
  apply Iff.intro
  · intro h
    unfold clause at h
    split at h
    · simp at h
    · next c' rest' hc =>
      obtain ⟨taken, rfl, hd⟩ := condition_eq_ok_iff.mp hc
      rw [hd.create] at h
      cases h
      exact ⟨rfl, taken, rfl, hd⟩
  · intro h
    obtain ⟨rfl, h⟩ := h
    have hc : condition c.joiner.isNone ls = .ok (c.toCondition, rest) :=
      condition_eq_ok_iff.mpr h
    obtain ⟨taken, rfl, hd⟩ := h
    simp only [clause, hc, hd.create]

theorem joiner?_eq_some_iff {t : Token} {j : Joiner} :
    joiner? t = some j ↔ ∃ w, t = .word w ∧ Text.sameIgnoringCase w j.keyword = true := by
  cases t <;> simp [joiner?, Joiner.ofKeyword?_eq_some_iff]

theorem append_eof_eq_append {ls taken more : Lexemes} {p : Nat}
    (h : ls ++ [⟨.eof, p⟩] = taken ++ more) (ht : .eof ∉ tokens taken) :
    ∃ ms, ls = taken ++ ms ∧ more = ms ++ [⟨.eof, p⟩] := by
  rcases List.append_eq_append_iff.mp h with ⟨as, htaken, hmore⟩ | ⟨ms, hls, hmore⟩
  · cases as with
    | nil => exact ⟨[], by simpa using htaken.symm, by simpa using hmore.symm⟩
    | cons l as =>
      simp only [List.cons_append, List.cons.injEq] at hmore
      exact absurd (by simp [htaken, ← hmore.1]) ht
  · exact ⟨ms, hls, hmore⟩

theorem joined_sound {source : String} {ls : Lexemes} {cs : List Clause} {p : Nat}
    (hls : .eof ∉ tokens ls) (h : joined source (ls ++ [⟨.eof, p⟩]) = .ok cs) :
    DerivesJoined (tokens ls) cs := by
  induction hn : ls.length using Nat.strongRecOn generalizing ls cs with
  | ind n ih =>
    cases ls with
    | nil =>
      rw [List.nil_append, joined_cons, if_pos rfl] at h
      cases h
      exact .nil
    | cons l ls =>
      simp only [tokens_cons, List.mem_cons, not_or] at hls
      rw [List.cons_append, joined_cons, if_neg (Ne.symm hls.1)] at h
      split at h
      · simp at h
      · next j hj =>
        obtain ⟨w, hw, hk⟩ := joiner?_eq_some_iff.mp hj
        simp only [bind_eq_ok_iff, Prod.exists, clause_eq_ok_iff] at h
        obtain ⟨c, more, ⟨hcj, taken, htaken, hd⟩, cs', hms, h⟩ := h
        obtain ⟨ms, rfl, rfl⟩ := append_eof_eq_append htaken hd.eof_not_mem
        cases h
        simp only [tokens_append, List.mem_append, not_or] at hls
        have hlt : ms.length < n := by
          simp only [← hn, List.length_cons, List.length_append]; omega
        have hjoined := ih ms.length hlt hls.2.2 hms rfl
        simpa [hw, ← hcj] using DerivesJoined.cons hk hd hjoined

theorem joined_complete {source : String} {ls : Lexemes} {cs : List Clause} {p : Nat}
    (h : DerivesJoined (tokens ls) cs) : joined source (ls ++ [⟨.eof, p⟩]) = .ok cs := by
  generalize hts : tokens ls = ts at h
  induction h generalizing ls with
  | nil =>
    rw [tokens_eq_nil_iff.mp hts, List.nil_append, joined_cons, if_pos rfl]
  | @cons w j ts us c cs hk hc _ ih =>
    simp only [tokens_eq_cons_iff, tokens_eq_append_iff] at hts
    obtain ⟨q, _, rfl, taken, ms, rfl, rfl, hms⟩ := hts
    have hj : joiner? (.word w) = some j := joiner?_eq_some_iff.mpr ⟨w, rfl, hk⟩
    rw [List.cons_append, joined_cons, if_neg (by simp), hj]
    simp only [bind_eq_ok_iff, Prod.exists, clause_eq_ok_iff]
    exact ⟨⟨c, some j⟩, ms ++ [⟨.eof, p⟩], ⟨rfl, taken, by simp, hc⟩, cs, ih hms, rfl⟩

/-- The parser accepts the tokens of a query if and only if the grammar derives them. -/
theorem query_eq_ok_iff {source : String} {ls : Lexemes} {cs : List Clause} {p : Nat}
    (hls : .eof ∉ tokens ls) :
    query source (ls ++ [⟨.eof, p⟩]) = .ok cs ↔ DerivesQuery (tokens ls) cs := by
  cases ls with
  | nil =>
    apply Iff.intro
    · intro h
      cases h
      exact .empty
    · intro h
      generalize hts : tokens [] = ts at h
      cases h with
      | empty => rfl
      | clauses hc _ => cases hc; simp at hts
  | cons l ls =>
    have hl : l.token ≠ .eof := by
      intro hl
      simp [hl] at hls
    rw [query, if_neg (by simpa [head] using hl)]
    simp only [bind_eq_ok_iff, Prod.exists, clause_eq_ok_iff]
    apply Iff.intro
    · intro h
      obtain ⟨c, more, ⟨hcj, taken, htaken, hd⟩, cs', hcs, h⟩ := h
      obtain ⟨ms, hms, rfl⟩ := append_eof_eq_append htaken hd.eof_not_mem
      cases h
      rw [hms] at hls ⊢
      simp only [tokens_append, List.mem_append, not_or] at hls
      simpa [← hcj] using DerivesQuery.clauses hd (joined_sound hls.2 hcs)
    · intro h
      generalize hts : tokens (l :: ls) = ts at h
      cases h with
      | empty => simp at hts
      | clauses hc hj =>
        obtain ⟨taken, ms, hms, rfl, rfl⟩ := tokens_eq_append_iff.mp hts
        exact ⟨_, ms ++ [⟨.eof, p⟩], ⟨rfl, taken, by simp [hms], hc⟩, _,
          joined_complete hj, rfl⟩

end Lexemes

/-- A query has at most one reading. -/
theorem DerivesQuery.unique {ts : List Token} {cs₁ cs₂ : List Clause}
    (h₁ : DerivesQuery ts cs₁) (h₂ : DerivesQuery ts cs₂) : cs₁ = cs₂ := by
  -- Both readings are what the parser returns for the tokens at any positions.
  let ls : Lexemes := ts.map (⟨·, 0⟩)
  have hls : Lexemes.tokens ls = ts := by simp [ls, Lexemes.tokens, Function.comp_def]
  have hmem : .eof ∉ Lexemes.tokens ls := hls ▸ h₁.eof_not_mem
  rw [← hls] at h₁ h₂
  have hquery {cs : List Clause} (h : DerivesQuery (Lexemes.tokens ls) cs) :
      Lexemes.query "" (ls ++ [⟨.eof, 0⟩]) = .ok cs := (Lexemes.query_eq_ok_iff hmem).mpr h
  exact Except.ok.inj ((hquery h₁).symm.trans (hquery h₂))

theorem Cursor.lexemes_eq_ok {c : Cursor} {ls : List Lexeme} (h : c.lexemes = .ok ls) :
    ∃ init p, ls = init ++ [⟨.eof, p⟩] ∧ .eof ∉ Lexemes.tokens init := by
  fun_induction Cursor.lexemes c generalizing ls with
  | case1 => simp at h
  | case2 c l c' hn hl =>
    cases h
    exact ⟨[], l.position, by simp [← hl], by simp⟩
  | case3 c l c' hn hl _ ls' hls ih =>
    cases h
    obtain ⟨init, p, rfl, hinit⟩ := ih hls
    exact ⟨l :: init, p, rfl, by simp [Ne.symm hl, hinit]⟩
  | case4 => simp at h

theorem parse_eq_ok_iff {s : String} {cs : List Clause} :
    parse s = .ok cs ↔ ∃ ls p, tokenize s = .ok (ls ++ [⟨.eof, p⟩]) ∧
      DerivesQuery (Lexemes.tokens ls) cs := by
  unfold parse
  apply Iff.intro
  · intro h
    split at h
    · next ls hls =>
      obtain ⟨init, p, rfl, hinit⟩ := Cursor.lexemes_eq_ok hls
      exact ⟨init, p, hls, (Lexemes.query_eq_ok_iff hinit).mp h⟩
    · simp at h
  · intro h
    obtain ⟨ls, p, hls, h⟩ := h
    rw [hls]
    exact (Lexemes.query_eq_ok_iff h.eof_not_mem).mpr h

/-- A text is read as some clauses if and only if the grammar derives them from its tokens, and no
tokens derive two lists of clauses. -/
theorem parse_iff_derives (s : String) :
    (∀ cs, parse s = .ok cs ↔ ∃ ls p, tokenize s = .ok (ls ++ [⟨.eof, p⟩]) ∧
      DerivesQuery (Lexemes.tokens ls) cs) ∧
    ∀ ts cs₁ cs₂, DerivesQuery ts cs₁ → DerivesQuery ts cs₂ → cs₁ = cs₂ :=
  ⟨fun _ => parse_eq_ok_iff, fun _ _ _ => DerivesQuery.unique⟩

end FilterQuery
