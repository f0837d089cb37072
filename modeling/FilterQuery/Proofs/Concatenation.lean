import FilterQuery.Proofs.Routes

namespace FilterQuery

/-! ## Texts one after the other -/

theorem Delimits.append {cs rest : List Char} {t : Token} (h : Delimits cs t)
    (hrest : ∀ c ∈ rest.head?, isWordChar c = false) : Delimits (cs ++ rest) t := by
  intro w hw c hc
  cases cs with
  | nil => exact hrest c hc
  | cons d cs => exact h w hw c hc

theorem Reads.blanks {lead cs : List Char} {ts : List Token} (hlead : AllBlank lead)
    (h : Reads cs ts) : Reads (lead ++ cs) ts := by
  intro p
  rw [Cursor.lexemes_congr (Cursor.next_blanks hlead)]
  exact h (p + Text.byteLength lead)

theorem Layout.reads_append {lead rest : List Char} {ws : List Placed} {ts : List Token}
    (h : Layout lead ws) (hrest : ∀ c ∈ rest.head?, isWordChar c = false) (hts : Reads rest ts) :
    Reads (lead ++ (Placed.text ws ++ rest)) (ws.map (·.token) ++ ts) := by
  induction ws generalizing lead with
  | nil => exact hts.blanks h.lead
  | cons w ws ih =>
    have hdelimits := h.delimits.append hrest
    rw [List.append_assoc] at hdelimits
    have htail := (ih h.tail).cons (h.spells w List.mem_cons_self) hdelimits
    simpa [Placed.text, Placed.chars] using htail.blanks h.lead

theorem Layout.reads {lead : List Char} {ws : List Placed} (h : Layout lead ws) :
    Reads (lead ++ Placed.text ws) (ws.map (·.token)) := by
  simpa using h.reads_append (by simp) .nil

/-- A text that is split into tokens up to its end is split so wherever it stands, also when more
text follows that no word could run into. -/
theorem Reads.append {cs ds : List Char} {ts us : List Token} (hcs : Reads cs ts)
    (hds : Reads ds us) (hend : ∀ c ∈ ds.head?, isWordChar c = false) :
    Reads (cs ++ ds) (ts ++ us) := by
  obtain ⟨ls, q, hls, rfl⟩ := hcs 0
  obtain ⟨lead, ws, hlayout, hrest, htokens⟩ := Cursor.exists_layout hls
  rw [htokens, show cs = lead ++ Placed.text ws from hrest, List.append_assoc]
  exact hlayout.reads_append hend hds

theorem parse_eq_ok_iff_exists_reads {s : String} {cs : List Clause} :
    parse s = .ok cs ↔ ∃ ts, Reads s.toList ts ∧ DerivesQuery ts cs := by
  apply Iff.intro
  · intro h
    obtain ⟨ls, q, hls, hcs⟩ := parse_eq_ok_iff.mp h
    obtain ⟨lead, ws, hlayout, hs, htokens⟩ := Cursor.exists_layout hls
    have hreads := hlayout.reads
    rw [← hs, ← htokens] at hreads
    exact ⟨Lexemes.tokens ls, hreads, hcs⟩
  · intro h
    obtain ⟨ts, hs, hcs⟩ := h
    exact (parse_eq_ok_iff_of_reads hs).mpr hcs

/-! ## Joined texts -/

theorem isWordChar_of_toLower {c : Char} (h : isWordChar c.toLower = true) :
    isWordChar c = true := by
  unfold Char.toLower at h
  split at h
  · next hrange =>
    have hupper : c.isUpper = true := decide_eq_true hrange
    have hclass : (((c.isUpper || c.isLower) || c.isDigit) || c == '_') = true := by
      simp [hupper]
    exact hclass
  · exact h

theorem Joiner.folded_keyword (j : Joiner) : Text.folded j.keyword = j.keyword.toList := by
  cases j <;> rfl

theorem Joiner.word_of_sameIgnoringCase {w : String} {j : Joiner}
    (h : Text.sameIgnoringCase w j.keyword = true) :
    w ≠ "" ∧ w.toList.all isWordChar = true := by
  have hfolded : Text.folded w = j.keyword.toList :=
    (beq_iff_eq.mp h).trans j.folded_keyword
  obtain ⟨hne, hall⟩ := j.word_keyword
  rw [← hfolded, List.all_eq_true] at hall
  apply And.intro
  · rintro rfl
    exact hne (String.toList_eq_nil_iff.mp hfolded.symm)
  · rw [List.all_eq_true]
    intro c hc
    exact isWordChar_of_toLower (hall c.toLower (List.mem_map_of_mem hc))

theorem DerivesJoined.append {ts us : List Token} {cs ds : List Clause} (h : DerivesJoined ts cs)
    (hds : DerivesJoined us ds) : DerivesJoined (ts ++ us) (cs ++ ds) := by
  induction h with
  | nil => exact hds
  | cons hw hc _ ih =>
    rw [List.cons_append, List.append_assoc]
    exact .cons hw hc ih

theorem DerivesQuery.append {ts us : List Token} {cs ds : List Clause} (h : DerivesQuery ts cs)
    (hcs : cs ≠ []) (hds : DerivesJoined us ds) : DerivesQuery (ts ++ us) (cs ++ ds) := by
  cases h with
  | empty => exact absurd rfl hcs
  | clauses hc hj =>
    rw [List.append_assoc]
    exact .clauses hc (hj.append hds)

theorem DerivesQuery.joined {us : List Token} {c : Clause} {ds : List Clause} {w : String}
    {j : Joiner} (h : DerivesQuery us (c :: ds))
    (hw : Text.sameIgnoringCase w j.keyword = true) :
    DerivesJoined (.word w :: us) (⟨c.toCondition, some j⟩ :: ds) := by
  cases h with
  | clauses hc hj => exact .cons hw hc hj

theorem parse_joined {s₁ s₂ w : String} {j : Joiner} {cs ds : List Clause} {c : Clause}
    (h₁ : parse s₁ = .ok cs) (hcs : cs ≠ []) (h₂ : parse s₂ = .ok (c :: ds))
    (hw : Text.sameIgnoringCase w j.keyword = true) :
    parse (s₁ ++ " " ++ w ++ " " ++ s₂) = .ok (cs ++ ⟨c.toCondition, some j⟩ :: ds) := by
  rw [parse_eq_ok_iff_exists_reads] at h₁ h₂ ⊢
  obtain ⟨ts, hs₁, hts⟩ := h₁
  obtain ⟨us, hs₂, hus⟩ := h₂
  obtain ⟨hne, hall⟩ := Joiner.word_of_sameIgnoringCase hw
  have hspace : Text.isBlank ' ' = true ∧ isWordChar ' ' = false := by decide
  have hword := (hs₂.blank hspace.1).word hne hall (by simpa using hspace.2)
  have hreads := hs₁.append (hword.blank hspace.1) (by simpa using hspace.2)
  exact ⟨ts ++ .word w :: us, by simpa using hreads, hts.append hcs (hus.joined hw)⟩

/-! ## Joined predicates -/

def Joiner.connect : Joiner → Prop → Prop → Prop
  | .and, p, q => p ∧ q
  | .or, p, q => p ∨ q

namespace Options

variable {α : Type} {o : Options} {s : Schema α}

theorem holds_combine {j : Joiner} {p q : Predicate α} {a : α} :
    (combine j p q).holds a = true ↔ j.connect (q.holds a = true) (p.holds a = true) := by
  cases j with
  | and => simp [combine, Predicate.and, Joiner.connect, and_comm]
  | or => simp [combine, Predicate.or, Joiner.connect, or_comm]

theorem holds_compileClauses_append {cs : List Clause} {c : Condition} {j : Joiner}
    {p : Predicate α} (hcs : cs ≠ []) (h : o.compileClauses s (cs ++ [⟨c, some j⟩]) = .ok p) :
    ∃ p₁ p₂, o.compileClauses s cs = .ok p₁ ∧ o.compileCondition s c = .ok p₂ ∧
      ∀ a, p.holds a = true ↔ j.connect (p₁.holds a = true) (p₂.holds a = true) := by
  obtain ⟨p₁, hp₁, h⟩ := (compileClauses_append_eq_ok_iff hcs).mp h
  obtain ⟨_, p₂, ⟨⟩, hp₂, h⟩ := compileJoined_cons_eq_ok_iff.mp h
  cases h
  exact ⟨p₁, p₂, hp₁, hp₂, fun a => holds_combine⟩

end Options

/-- Of two texts with a joiner between them, in any mix of case, the clauses of the second come
after those of the first. Where the second has a single clause, the whole selects what both of them
select, or what at least one of them does. -/
theorem parse_joined_texts {s₁ s₂ w : String} {j : Joiner} {cs ds : List Clause} {c : Clause}
    (h₁ : parse s₁ = .ok cs) (hcs : cs ≠ []) (h₂ : parse s₂ = .ok (c :: ds))
    (hw : Text.sameIgnoringCase w j.keyword = true) :
    parse (s₁ ++ " " ++ w ++ " " ++ s₂) = .ok (cs ++ ⟨c.toCondition, some j⟩ :: ds) ∧
    ∀ {α : Type} (o : Options) (s : Schema α) p,
      o.compile s (s₁ ++ " " ++ w ++ " " ++ s₂) = .ok p → ds = [] →
      ∃ p₁ p₂, o.compile s s₁ = .ok p₁ ∧ o.compile s s₂ = .ok p₂ ∧
        ∀ a, p.holds a = true ↔ j.connect (p₁.holds a = true) (p₂.holds a = true) := by
  have hparse := parse_joined h₁ hcs h₂ hw
  refine ⟨hparse, ?_⟩
  rintro α o s p h rfl
  obtain ⟨hshort, cs', hcs', hp⟩ := Options.compile_eq_ok_iff.mp h
  cases hparse.symm.trans hcs'
  obtain ⟨p₁, p₂, hp₁, hp₂, hmeaning⟩ := Options.holds_compileClauses_append hcs hp
  have hshorter : ∀ limit ∈ o.maxLength,
      Text.byteLength s₁.toList ≤ limit ∧ Text.byteLength s₂.toList ≤ limit := by
    intro limit hlimit
    have hwhole := hshort limit hlimit
    simp only [String.toList_append, Text.byteLength_append] at hwhole
    omega
  have hc : c.joiner = none := (wellJoined_of_parse h₂ 0 c rfl).mpr rfl
  have hsecond : o.compileClauses s [c] = .ok p₂ :=
    Options.compileClauses_cons_eq_ok_iff.mpr ⟨hc, p₂, hp₂, rfl⟩
  exact ⟨p₁, p₂,
    Options.compile_eq_ok_iff.mpr ⟨fun limit hl => (hshorter limit hl).1, cs, h₁, hp₁⟩,
    Options.compile_eq_ok_iff.mpr ⟨fun limit hl => (hshorter limit hl).2, [c], h₂, hsecond⟩,
    hmeaning⟩

/-- In the second text a joiner stands inside the value, and there are blanks around the clause. -/
theorem parse_joined_texts_players :
    let s₁ := "gt('score', '3') OR eq('nickname', $!NULL!$)"
    let s₂ := " sw('nickname', ' and ')\t"
    let whole := s₁ ++ " " ++ "aNd" ++ " " ++ s₂
    let cs : List Clause :=
      [⟨⟨.order .greater, "score", .single (.text "3")⟩, none⟩,
        ⟨⟨.equal, "nickname", .single .null⟩, some .or⟩]
    let c : Condition := ⟨.startsWith, "nickname", .single (.text " and ")⟩
    let compiled := ({} : Options).compile (.ofColumns players)
    parse s₁ = .ok cs ∧ parse s₂ = .ok [⟨c, none⟩] ∧
    Text.sameIgnoringCase "aNd" Joiner.and.keyword = true ∧
    parse whole = .ok (cs ++ [⟨c, some .and⟩]) ∧
    ∃ p p₁ p₂, compiled whole = .ok p ∧ compiled s₁ = .ok p₁ ∧ compiled s₂ = .ok p₂ ∧
      ∀ a, p.holds a = true ↔ p₁.holds a = true ∧ p₂.holds a = true := by
  intro s₁ s₂ whole cs c compiled
  have h₁ : parse s₁ = .ok cs := by decide +kernel
  have h₂ : parse s₂ = .ok [⟨c, none⟩] := by decide +kernel
  have hw : Text.sameIgnoringCase "aNd" Joiner.and.keyword = true := rfl
  obtain ⟨hparse, hmeaning⟩ := parse_joined_texts h₁ (by decide) h₂ hw
  have hcompiled : ∃ p, compiled whole = .ok p :=
    ⟨_, Options.compile_eq_ok_iff.mpr ⟨by simp, _, hparse, rfl⟩⟩
  obtain ⟨p, hp⟩ := hcompiled
  obtain ⟨p₁, p₂, hp₁, hp₂, h⟩ := hmeaning {} (.ofColumns players) p hp rfl
  exact ⟨h₁, h₂, hw, hparse, p, p₁, p₂, hp, hp₁, hp₂, h⟩

end FilterQuery
