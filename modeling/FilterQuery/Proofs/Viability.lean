import FilterQuery.Proofs.Unreadable

namespace FilterQuery

/-- Whether some tokens are the beginning of those of a query, to which its end belongs. -/
def Viable (ts : List Token) : Prop :=
  ∃ us cs, DerivesQuery us cs ∧ ts <+: us ++ [.eof]

namespace Lexemes

/-! ## Open lists -/

/-- Whether lexemes end after an item of a list that is still open; its bracket stands at `p`. -/
def ListOpenAt (p : Nat) (ls : Lexemes) : Prop :=
  ∃ before taken as, ls = before ++ ⟨.openBracket, p⟩ :: taken ∧ DerivesItems (tokens taken) as

/-- Whether lexemes are such that no list is open after them but by what follows. -/
def Closed (ls : Lexemes) : Prop :=
  ∀ p more, ListOpenAt p (ls ++ more) ↔ ListOpenAt p more

theorem not_listOpenAt_nil {p : Nat} : ¬ ListOpenAt p [] := by
  intro h
  obtain ⟨before, taken, as, h, _⟩ := h
  simp at h

theorem listOpenAt_cons {p : Nat} {l : Lexeme} {ls : Lexemes} :
    ListOpenAt p (l :: ls) ↔
      l = ⟨.openBracket, p⟩ ∧ (∃ as, DerivesItems (tokens ls) as) ∨ ListOpenAt p ls := by
  apply Iff.intro
  · intro h
    obtain ⟨before, taken, as, h, hitems⟩ := h
    cases before with
    | nil =>
      cases h
      exact .inl ⟨rfl, as, hitems⟩
    | cons b before =>
      cases h
      exact .inr ⟨before, taken, as, rfl, hitems⟩
  · intro h
    rcases h with ⟨rfl, as, hitems⟩ | ⟨before, taken, as, rfl, hitems⟩
    · exact ⟨[], ls, as, rfl, hitems⟩
    · exact ⟨l :: before, taken, as, rfl, hitems⟩

theorem closed_nil : Closed [] := fun _ _ => .rfl

theorem Closed.append {ls ms : Lexemes} (h₁ : Closed ls) (h₂ : Closed ms) : Closed (ls ++ ms) := by
  intro p more
  rw [List.append_assoc, h₁ p, h₂ p]

theorem Closed.cons {l : Lexeme} {ls : Lexemes} (hl : l.token ≠ .openBracket) (h : Closed ls) :
    Closed (l :: ls) := by
  intro p more
  have hne : l ≠ ⟨.openBracket, p⟩ := by
    rintro rfl
    exact hl rfl
  rw [List.cons_append, listOpenAt_cons, h p]
  simp [hne]

theorem closed_of_forall {ls : Lexemes} (h : .openBracket ∉ tokens ls) : Closed ls := by
  induction ls with
  | nil => exact closed_nil
  | cons l ls ih =>
    simp only [tokens_cons, List.mem_cons, not_or] at h
    exact .cons (Ne.symm h.1) (ih h.2)

end Lexemes

theorem DerivesItems.cons_comma_iff {t : Token} {a : Atom} {ts : List Token}
    (ha : DerivesAtom t a) :
    (∃ as, DerivesItems (t :: .comma :: ts) as) ↔ ∃ as, DerivesItems ts as := by
  apply Iff.intro
  · intro h
    obtain ⟨_, h⟩ := h
    cases h with
    | more _ h => exact ⟨_, h⟩
  · intro h
    obtain ⟨_, h⟩ := h
    exact ⟨_, .more ha h⟩

namespace Lexemes

theorem closed_literal {ls : Lexemes} {l : Literal} (h : DerivesLiteral (tokens ls) l) :
    Closed ls := by
  generalize hts : tokens ls = ts at h
  cases h with
  | single ha =>
    have hbracket : .openBracket ∉ tokens ls := by
      rw [hts]
      cases ha <;> simp
    exact closed_of_forall hbracket
  | @list us as hi =>
    simp only [tokens_eq_cons_iff, tokens_eq_append_iff, tokens_eq_nil_iff] at hts
    obtain ⟨p, _, rfl, taken, _, rfl, rfl, q, _, rfl, rfl⟩ := hts
    have hclosed : Closed (taken ++ [⟨.closeBracket, q⟩]) := by
      apply closed_of_forall
      simp only [tokens_append, List.mem_append, not_or]
      exact ⟨hi.inList .openBracket, by simp⟩
    intro r more
    rw [List.cons_append, listOpenAt_cons, hclosed r]
    simp only [or_iff_right_iff_imp]
    rintro ⟨_, as, hitems⟩
    exact (hitems.inList .closeBracket (by simp)).elim

theorem closed_condition {ls : Lexemes} {c : Condition} (h : DerivesCondition (tokens ls) c) :
    Closed ls := by
  generalize hts : tokens ls = ts at h
  cases h with
  | intro op hname hl =>
    simp only [tokens_eq_cons_iff, tokens_eq_append_iff, tokens_eq_nil_iff] at hts
    obtain ⟨p₁, _, rfl, p₂, _, rfl, p₃, _, rfl, p₄, _, rfl, taken, _, rfl, rfl, p₅, _, rfl,
      rfl⟩ := hts
    have hclosing : Closed [⟨.closeParen, p₅⟩] := closed_nil.cons (by simp)
    exact ((((((closed_literal hl).append hclosing).cons (by simp)).cons (by simp)).cons
      (by simp)).cons (by simp))

/-! ## Where a reader stops -/

/-- Whether a lexeme that cannot follow others is reported at a position. It is its own, but the
end of the query after an item of an open list is reported at the bracket of the list. -/
inductive ReportedAt (init : Lexemes) (l : Lexeme) : Nat → Prop
  | bracket {p : Nat} : l.token = .eof → ListOpenAt p init → ReportedAt init l p
  | token : (l.token = .eof → ∀ p, ¬ ListOpenAt p init) → ReportedAt init l l.position

/-- Whether a reader fails at the first lexeme that rules out what it accepts. The lexemes before
it can be completed, and with it the reader fails whatever comes next. -/
def Stops {ε β : Type} (read : Lexemes → Except ε β) (accepts : List Token → Prop) (e : ε)
    (p : Nat) (ls : Lexemes) : Prop :=
  ∃ init l more, ls = init ++ l :: more ∧ (∃ us, accepts (tokens init ++ us)) ∧
    (∀ more, read (init ++ l :: more) = .error e) ∧ ReportedAt init l p

theorem ReportedAt.congr {init init' : Lexemes} {l : Lexeme} {p : Nat}
    (hopen : ∀ q, ListOpenAt q init' ↔ ListOpenAt q init) (h : ReportedAt init l p) :
    ReportedAt init' l p := by
  cases h with
  | bracket heof hp => exact .bracket heof ((hopen p).mpr hp)
  | token h => exact .token fun heof q hq => h heof q ((hopen q).mp hq)

section

variable {ε ε' β γ : Type} {read : Lexemes → Except ε β} {read' : Lexemes → Except ε' γ}
  {accepts accepts' : List Token → Prop} {e : ε} {e' : ε'} {p : Nat} {ls : Lexemes}

theorem Stops.after {taken : Lexemes} (h : Stops read accepts e p ls) (htaken : Closed taken)
    (hread : ∀ ms, read ms = .error e → read' (taken ++ ms) = .error e')
    (haccepts : ∀ us, accepts us → ∃ vs, accepts' (tokens taken ++ (us ++ vs))) :
    Stops read' accepts' e' p (taken ++ ls) := by
  obtain ⟨init, l, more, rfl, ⟨us, hus⟩, hstops, hreported⟩ := h
  obtain ⟨vs, hvs⟩ := haccepts _ hus
  refine ⟨taken ++ init, l, more, by simp, ⟨us ++ vs, by simpa using hvs⟩, ?_, ?_⟩
  · intro more
    rw [List.append_assoc]
    exact hread _ (hstops more)
  · exact hreported.congr fun q => htaken q init

theorem stops_head {l : Lexeme} (hp : p = l.position) (haccepts : ∃ us, accepts us)
    (hread : ∀ more, read (l :: more) = .error e) : Stops read accepts e p (l :: ls) :=
  ⟨[], l, ls, rfl, haccepts, hread, hp ▸ .token fun _ _ => not_listOpenAt_nil⟩

theorem Stops.bind_left {ρ : Type} {read : Lexemes → Except ε ρ} {next : ρ → Except ε β}
    (h : Stops read accepts e p ls) (haccepts : ∀ us, accepts us → ∃ vs, accepts' (us ++ vs)) :
    Stops (fun ls => read ls >>= next) accepts' e p ls :=
  h.after closed_nil (fun _ hms => bind_eq_error_iff.mpr (.inl hms)) haccepts

theorem Stops.bind_right {ρ : Type} {read : Lexemes → Except ε ρ} {next : ρ → Except ε β}
    (taken : Lexemes) (result : Lexemes → ρ) (htaken : Closed taken)
    (hread : ∀ ms, read (taken ++ ms) = .ok (result ms))
    (h : Stops (fun ms => next (result ms)) (fun us => accepts (tokens taken ++ us)) e p ls) :
    Stops (fun ls => read ls >>= next) accepts e p (taken ++ ls) := by
  refine h.after htaken ?_ fun us hus => ⟨[], by simpa using hus⟩
  intro ms hms
  exact bind_eq_error_iff.mpr (.inr ⟨_, hread ms, hms⟩)

end

variable {ls : Lexemes} {f : Fault}

theorem exists_cons {t : Token} (h : t ∈ tokens ls) : ∃ l more, ls = l :: more := by
  cases ls with
  | nil => simp at h
  | cons l more => exact ⟨l, more, rfl⟩

theorem operator_stops {first : Bool} (heof : .eof ∈ tokens ls)
    (h : operator first ls = .error f) :
    Stops (operator first) (fun ts => ∃ op : Operator, ts = [.word op.tag]) f f.position ls := by
  obtain ⟨⟨t, p⟩, more, rfl⟩ := exists_cons heof
  cases t with
  | word w =>
    simp only [operator] at h
    split at h
    · cases h
      exact stops_head rfl ⟨_, .equal, rfl⟩ (by simp_all [operator])
    split at h
    · cases h
    · cases h
      exact stops_head rfl ⟨_, .equal, rfl⟩ (by simp_all [operator])
  | _ =>
    cases h
    exact stops_head rfl ⟨_, .equal, rfl⟩ fun _ => rfl

theorem expect_stops {t : Token} {problem : Token → Problem} (heof : .eof ∈ tokens ls)
    (h : expect t problem ls = .error f) :
    Stops (expect t problem) (· = [t]) f f.position ls := by
  obtain ⟨l, more, rfl⟩ := exists_cons heof
  simp only [expect] at h
  split at h
  · cases h
  · next ht =>
    cases h
    exact stops_head rfl ⟨_, rfl⟩ fun more => by simp [expect, ht, reject, head]

theorem property_stops (heof : .eof ∈ tokens ls) (h : property ls = .error f) :
    Stops property (fun ts => ∃ name, Text.Blank name = false ∧ ts = [.quoted name]) f
      f.position ls := by
  have hname : ∃ us name, Text.Blank name = false ∧ us = [Token.quoted name] :=
    ⟨_, "x", by decide, rfl⟩
  obtain ⟨⟨t, p⟩, more, rfl⟩ := exists_cons heof
  cases t with
  | quoted name =>
    simp only [property] at h
    split at h
    · next hblank =>
      cases h
      exact stops_head rfl hname fun more => by simp [property, hblank]
    · cases h
  | _ =>
    cases h
    exact stops_head rfl hname fun _ => rfl

theorem items_stops {opening : Nat} (heof : .eof ∈ tokens ls)
    (h : items opening ls = .error f) :
    ∃ init l more, ls = init ++ l :: more ∧ (∃ us as, DerivesItems (tokens init ++ us) as) ∧
      (∀ more, items opening (init ++ l :: more) = .error f) ∧
      ReportedAt (⟨.openBracket, opening⟩ :: init) l f.position := by
  fun_induction items opening ls with
  | case1 => simp at heof
  | case2 l rest hatom =>
    cases h
    refine ⟨[], l, rest, rfl, ⟨_, _, .last .null⟩, ?_, .token ?_⟩
    · intro more
      simp [items, hatom, reject, head]
    · intro _ p hp
      rw [listOpenAt_cons] at hp
      rcases hp with ⟨_, as, hitems⟩ | hp
      · cases hitems
      · exact not_listOpenAt_nil hp
  | case3 => cases h
  | case4 l a hatom p more f' hmore ih =>
    cases h
    have ha := ofToken?_eq_some_iff.mp hatom
    have hlist : l.token ≠ .openBracket := by
      intro hl
      rw [hl] at ha
      cases ha
    have hne : l.token ≠ .eof := by
      intro hl
      rw [hl] at ha
      cases ha
    obtain ⟨init, l', more', rfl, ⟨us, as, hus⟩, hstops, hreported⟩ :=
      ih (by simpa [Ne.symm hne] using heof) hmore
    refine ⟨l :: ⟨.comma, p⟩ :: init, l', more', rfl, ⟨us, a :: as, .more ha hus⟩, ?_, ?_⟩
    · intro more
      simp [items, hatom, hstops more]
    · apply hreported.congr
      intro q
      have hopen : ListOpenAt q (l :: ⟨.comma, p⟩ :: init) ↔ ListOpenAt q init :=
        ((closed_nil.cons (by simp)).cons hlist) q init
      rw [listOpenAt_cons, hopen, listOpenAt_cons, tokens_cons, tokens_cons,
        DerivesItems.cons_comma_iff ha]
  | case5 => cases h
  | case6 l a hatom p more =>
    cases h
    have ha := ofToken?_eq_some_iff.mp hatom
    refine ⟨[l], ⟨.eof, p⟩, more, rfl, ⟨[], _, .last ha⟩, ?_, ?_⟩
    · intro more
      simp [items, hatom]
    · exact .bracket rfl ⟨[], [l], _, rfl, .last ha⟩
  | case7 l a hatom =>
    have ha := ofToken?_eq_some_iff.mp hatom
    rw [tokens_cons, tokens_nil, List.mem_singleton] at heof
    rw [← heof] at ha
    cases ha
  | case8 l a hatom found more hcomma hbracket hend =>
    cases h
    have ha := ofToken?_eq_some_iff.mp hatom
    refine ⟨[l], found, more, rfl, ⟨[], _, .last ha⟩, ?_, .token ?_⟩
    · intro more
      obtain ⟨t, p⟩ := found
      cases t with
      | comma => exact (hcomma p rfl).elim
      | closeBracket => exact (hbracket p rfl).elim
      | eof => exact (hend p rfl).elim
      | _ => simp [items, hatom]
    · intro heof
      exact (hend found.position (by rw [← heof])).elim

theorem literal_stops (heof : .eof ∈ tokens ls) (h : literal ls = .error f) :
    Stops literal (fun ts => ∃ l, DerivesLiteral ts l) f f.position ls := by
  have hliteral : ∃ us l, DerivesLiteral us l := ⟨_, _, .single .null⟩
  obtain ⟨⟨t, p⟩, more, rfl⟩ := exists_cons heof
  cases t with
  | openBracket =>
    simp only [literal] at h
    split at h
    · cases h
    · next f' hitems =>
      cases h
      obtain ⟨init, l, more', rfl, ⟨us, as, hus⟩, hstops, hreported⟩ :=
        items_stops (by simpa using heof) hitems
      refine ⟨⟨.openBracket, p⟩ :: init, l, more', rfl, ?_, ?_, hreported⟩
      · exact ⟨us ++ [.closeBracket], _, by simpa using DerivesLiteral.list hus⟩
      · intro more
        simp [literal, hstops more]
  | quoted | null => cases h
  | _ =>
    cases h
    exact stops_head rfl hliteral fun _ => rfl

theorem condition_stops {first : Bool} (heof : .eof ∈ tokens ls)
    (h : condition first ls = .error f) :
    Stops (condition first) (fun ts => ∃ c, DerivesCondition ts c) f f.position ls := by
  have hliteral : DerivesLiteral [.null] (.single .null) := .single .null
  have hname : Text.Blank "x" = false := by decide
  have hone {l : Lexeme} (hl : l.token ≠ .openBracket) : Closed [l] := closed_nil.cons hl
  rcases bind_eq_error_iff.mp h with hfail | ⟨⟨op, ls₁⟩, hop, h₁⟩
  · refine (operator_stops heof hfail).bind_left ?_
    rintro _ ⟨op, rfl⟩
    exact ⟨_, _, .intro op hname hliteral⟩
  obtain ⟨p, rfl⟩ := operator_eq_ok_iff.mp hop
  have heof : .eof ∈ tokens ls₁ := by simpa using heof
  refine .bind_right [_] (op, ·) (hone (by simp)) (fun _ => operator_eq_ok_iff.mpr ⟨p, rfl⟩) ?_
  rcases bind_eq_error_iff.mp h₁ with hfail | ⟨ls₂, hopening, h₂⟩
  · refine (expect_stops heof hfail).bind_left ?_
    rintro _ rfl
    exact ⟨_, _, .intro op hname hliteral⟩
  obtain ⟨p, rfl⟩ := expect_eq_ok_iff.mp hopening
  have heof : .eof ∈ tokens ls₂ := by simpa using heof
  refine .bind_right [_] id (hone (by simp)) (fun _ => expect_eq_ok_iff.mpr ⟨p, rfl⟩) ?_
  rcases bind_eq_error_iff.mp h₂ with hfail | ⟨⟨name, ls₃⟩, hproperty, h₃⟩
  · refine (property_stops heof hfail).bind_left ?_
    rintro _ ⟨name, hname, rfl⟩
    exact ⟨_, _, .intro op hname hliteral⟩
  obtain ⟨hname, p, rfl⟩ := property_eq_ok_iff.mp hproperty
  have heof : .eof ∈ tokens ls₃ := by simpa using heof
  refine .bind_right [_] (name, ·) (hone (by simp))
    (fun _ => property_eq_ok_iff.mpr ⟨hname, p, rfl⟩) ?_
  rcases bind_eq_error_iff.mp h₃ with hfail | ⟨ls₄, hcomma, h₄⟩
  · refine (expect_stops heof hfail).bind_left ?_
    rintro _ rfl
    exact ⟨[.null, .closeParen], _, .intro op hname hliteral⟩
  obtain ⟨p, rfl⟩ := expect_eq_ok_iff.mp hcomma
  have heof : .eof ∈ tokens ls₄ := by simpa using heof
  refine .bind_right [_] id (hone (by simp)) (fun _ => expect_eq_ok_iff.mpr ⟨p, rfl⟩) ?_
  rcases bind_eq_error_iff.mp h₄ with hfail | ⟨⟨l, ls₅⟩, hvalue, h₅⟩
  · refine (literal_stops heof hfail).bind_left ?_
    rintro _ ⟨l, hl⟩
    exact ⟨_, _, .intro op hname hl⟩
  obtain ⟨taken, rfl, hl⟩ := literal_eq_ok_iff.mp hvalue
  have hnone : .eof ∉ tokens taken := hl.inLiteral .eof
  have heof : .eof ∈ tokens ls₅ := by simpa [hnone] using heof
  refine .bind_right taken (l, ·) (closed_literal hl)
    (fun _ => literal_eq_ok_iff.mpr ⟨taken, rfl, hl⟩) ?_
  rcases bind_eq_error_iff.mp h₅ with hfail | ⟨ls₆, _, h₆⟩
  · refine (expect_stops heof hfail).bind_left ?_
    rintro _ rfl
    exact ⟨[], _, .intro op hname hl⟩
  · cases h₆

theorem clause_stops {source : String} {joiner : Option Joiner} {e : SyntaxError}
    (heof : .eof ∈ tokens ls) (h : clause source joiner ls = .error e) :
    ∃ f : Fault, e = f.within source ∧
      Stops (clause source joiner) (fun ts => ∃ c, DerivesCondition ts c) e f.position ls := by
  simp only [clause] at h
  split at h
  · next f hcondition =>
    cases h
    refine ⟨f, rfl, (condition_stops heof hcondition).after closed_nil ?_ ?_⟩
    · intro ms hms
      simp [clause, hms]
    · intro us hus
      exact ⟨[], by simpa using hus⟩
  · next c rest hcondition =>
    obtain ⟨taken, rfl, hd⟩ := condition_eq_ok_iff.mp hcondition
    rw [hd.create] at h
    cases h

theorem clause_eq_ok {source : String} {joiner : Option Joiner} {taken : Lexemes} {c : Condition}
    (h : DerivesCondition (tokens taken) c) (ms : Lexemes) :
    clause source joiner (taken ++ ms) = .ok (⟨c, joiner⟩, ms) :=
  clause_eq_ok_iff.mpr ⟨rfl, taken, rfl, h⟩

theorem joined_stops {source : String} {e : SyntaxError} (heof : .eof ∈ tokens ls)
    (h : joined source ls = .error e) :
    ∃ f : Fault, e = f.within source ∧
      Stops (joined source) (fun ts => ∃ cs, DerivesJoined ts cs) e f.position ls := by
  induction hn : ls.length using Nat.strongRecOn generalizing ls with
  | ind n ih =>
    obtain ⟨l, ls, rfl⟩ := exists_cons heof
    rw [joined_cons] at h
    split at h
    · cases h
    next hne =>
    have heof : .eof ∈ tokens ls := by simpa [Ne.symm hne] using heof
    split at h
    · next hjoiner =>
      cases h
      refine ⟨⟨.expectedJoiner l.token, l.position⟩, rfl, stops_head rfl ⟨_, _, .nil⟩ ?_⟩
      intro more
      rw [joined_cons, if_neg hne, hjoiner]
    · next j hjoiner =>
      obtain ⟨w, hw, hk⟩ := joiner?_eq_some_iff.mp hjoiner
      have hword : Closed [l] := closed_nil.cons (by simp [hw])
      rcases bind_eq_error_iff.mp h with hfail | ⟨⟨c, rest⟩, hc, htail⟩
      · obtain ⟨f, rfl, hstops⟩ := clause_stops heof hfail
        refine ⟨f, rfl, hstops.after hword ?_ ?_⟩
        · intro ms hms
          rw [List.singleton_append, joined_cons, if_neg hne, hjoiner]
          exact bind_eq_error_iff.mpr (.inl hms)
        · rintro us ⟨c, hc⟩
          exact ⟨[], _, by simpa [hw] using DerivesJoined.cons hk hc .nil⟩
      · obtain ⟨hcj, taken, rfl, hd⟩ := clause_eq_ok_iff.mp hc
        rcases bind_eq_error_iff.mp htail with hfail | ⟨cs, _, htail⟩
        · have heof : .eof ∈ tokens rest := by simpa [hd.eof_not_mem] using heof
          have hlt : rest.length < n := by
            simp only [← hn, List.length_cons, List.length_append]; omega
          obtain ⟨f, rfl, hstops⟩ := ih rest.length hlt heof hfail rfl
          refine ⟨f, rfl, hstops.after (hword.append (closed_condition hd)) ?_ ?_⟩
          · intro ms hms
            rw [List.append_assoc, List.singleton_append, joined_cons, if_neg hne, hjoiner]
            exact bind_eq_error_iff.mpr
              (.inr ⟨_, clause_eq_ok hd ms, bind_eq_error_iff.mpr (.inl hms)⟩)
          · rintro us ⟨cs, hcs⟩
            exact ⟨[], _, by simpa [hw] using DerivesJoined.cons hk hd hcs⟩
        · cases htail

theorem query_of_head {source : String} (h : ls.head.token ≠ .eof) :
    query source ls = (do
      let (c, rest) ← clause source none ls
      let cs ← joined source rest
      return c :: cs) := by
  rw [query, if_neg h]

theorem head_append_cons (init : Lexemes) (l : Lexeme) (ms ns : Lexemes) :
    (init ++ l :: ms).head = (init ++ l :: ns).head := by
  cases init <;> rfl

theorem head_condition {taken : Lexemes} {c : Condition} (h : DerivesCondition (tokens taken) c)
    (ms : Lexemes) : (taken ++ ms).head.token ≠ .eof := by
  generalize hts : tokens taken = ts at h
  cases h with
  | intro op hname hl =>
    obtain ⟨p, more, rfl, _⟩ := tokens_eq_cons_iff.mp hts
    simp [head]

theorem query_stops {source : String} {e : SyntaxError} (heof : .eof ∈ tokens ls)
    (h : query source ls = .error e) :
    ∃ f : Fault, e = f.within source ∧
      Stops (query source) (fun ts => ∃ cs, DerivesQuery ts cs) e f.position ls := by
  by_cases hne : ls.head.token = .eof
  · rw [query, if_pos hne] at h
    cases h
  rw [query_of_head hne] at h
  rcases bind_eq_error_iff.mp h with hfail | ⟨⟨c, rest⟩, hc, htail⟩
  · obtain ⟨f, rfl, init, l, more, rfl, ⟨us, c, hc⟩, hstops, hreported⟩ := clause_stops heof hfail
    refine ⟨f, rfl, init, l, more, rfl, ⟨us, [⟨c, none⟩], ?_⟩, ?_, hreported⟩
    · simpa using DerivesQuery.clauses hc .nil
    · intro ms
      rw [head_append_cons init l more ms] at hne
      rw [query_of_head hne]
      exact bind_eq_error_iff.mpr (.inl (hstops ms))
  · obtain ⟨_, taken, rfl, hd⟩ := clause_eq_ok_iff.mp hc
    rcases bind_eq_error_iff.mp htail with hfail | ⟨cs, _, htail⟩
    · have heof : .eof ∈ tokens rest := by simpa [hd.eof_not_mem] using heof
      obtain ⟨f, rfl, hstops⟩ := joined_stops heof hfail
      refine ⟨f, rfl, hstops.after (closed_condition hd) ?_ ?_⟩
      · intro ms hms
        rw [query_of_head (head_condition hd ms)]
        exact bind_eq_error_iff.mpr
          (.inr ⟨_, clause_eq_ok hd ms, bind_eq_error_iff.mpr (.inl hms)⟩)
      · rintro us ⟨cs, hcs⟩
        exact ⟨[], _, by simpa using DerivesQuery.clauses hd hcs⟩
    · cases htail

theorem not_viable_of_query {source : String} {e : SyntaxError} {init : Lexemes} {l : Lexeme}
    (h : ∀ more, query source (init ++ l :: more) = .error e) :
    ¬ Viable (tokens (init ++ [l])) := by
  intro hviable
  obtain ⟨us, cs, hus, vs, hvs⟩ := hviable
  -- The tokens after the lexeme may stand anywhere.
  let more : Lexemes := vs.map (⟨·, 0⟩)
  have hmore : tokens more = vs := by simp [more, tokens, Function.comp_def]
  have htokens : tokens (init ++ l :: more) = us ++ [.eof] := by
    rw [← hvs, ← hmore]
    simp
  obtain ⟨ms, ns, hms, rfl, hns⟩ := tokens_eq_append_iff.mp htokens
  obtain ⟨p, _, rfl, hnil⟩ := tokens_eq_cons_iff.mp hns
  obtain rfl := tokens_eq_nil_iff.mp hnil
  have hquery := h more
  rw [hms, (query_eq_ok_iff hus.eof_not_mem).mpr hus] at hquery
  cases hquery

end Lexemes

/-! ## The place of a syntax error -/

theorem Placed.exists_append_of_mem {l : Lexeme} {p : Nat} {ws : List Placed}
    (h : l ∈ Placed.lexemes p ws) :
    ∃ before after, Placed.text ws = before ++ after ∧ l.position = p + Text.byteLength before := by
  induction ws generalizing p with
  | nil =>
    obtain rfl := List.mem_singleton.mp h
    exact ⟨[], [], rfl, rfl⟩
  | cons w ws ih =>
    rcases List.mem_cons.mp h with rfl | h
    · exact ⟨[], _, rfl, rfl⟩
    · obtain ⟨before, after, htext, hposition⟩ := ih h
      refine ⟨w.chars ++ before, after, ?_, ?_⟩
      · simp [Placed.text] at htext ⊢
        exact htext
      · rw [hposition, Text.byteLength_append, Nat.add_assoc]

theorem position_of_tokenize {s : String} {ls : List Lexeme} {l : Lexeme}
    (h : tokenize s = .ok ls) (hl : l ∈ ls) :
    ∃ before after, s.toList = before ++ after ∧ l.position = Text.byteLength before := by
  obtain ⟨lead, ws, _, hs, rfl⟩ := Cursor.layout_of_lexemes h
  obtain ⟨before, after, htext, hposition⟩ := Placed.exists_append_of_mem hl
  refine ⟨lead ++ before, after, ?_, ?_⟩
  · have hs : s.toList = lead ++ Placed.text ws := hs
    rw [hs, htext, List.append_assoc]
  · rw [hposition, Text.byteLength_append]
    simp [Cursor.ofText]

theorem Lexemes.ReportedAt.exists_mem {init more : Lexemes} {l : Lexeme} {p : Nat}
    (h : ReportedAt init l p) : ∃ l' ∈ init ++ l :: more, l'.position = p := by
  cases h with
  | bracket _ hopen =>
    obtain ⟨before, taken, as, rfl, _⟩ := hopen
    exact ⟨⟨.openBracket, p⟩, by simp, rfl⟩
  | token => exact ⟨l, by simp, rfl⟩

theorem Fault.fragment_within {f : Fault} {s : String} {before after : List Char}
    (hs : s.toList = before ++ after) (hf : f.position = Text.byteLength before) :
    (f.within s).fragment = String.ofList (after.take 24) := by
  simp only [within, Text.fragmentAt, hs, hf, Text.dropBytes_append]
  rfl

/-- A syntax error quotes the query from its position on. If the text cannot be split into tokens,
the position is where the first thing stands that is no token, or at the backslash in it that
escapes nothing. Else it is that of the first token which rules out every query, or that of the
bracket of a list which the end of the query leaves open after an item. -/
theorem parse_error_place {s : String} {e : SyntaxError} (h : parse s = .error e) :
    (∃ before after, s.toList = before ++ after ∧ e.position = Text.byteLength before ∧
      e.fragment = String.ofList (after.take 24)) ∧
    (∀ f, tokenize s = .error f → ∃ lead ws bad n, Layout lead ws ∧
      s.toList = lead ++ (Placed.text ws ++ bad) ∧ StartsNoToken bad ∧ FaultOffset bad n ∧
      e.position = Text.byteLength (lead ++ Placed.text ws) + n) ∧
    ∀ ls, tokenize s = .ok ls → ∃ init l more, ls = init ++ l :: more ∧
      Viable (Lexemes.tokens init) ∧ ¬ Viable (Lexemes.tokens (init ++ [l])) ∧
      Lexemes.ReportedAt init l e.position := by
  simp only [parse] at h
  cases htokenize : tokenize s with
  | error f =>
    rw [htokenize] at h
    cases h
    obtain ⟨lead, ws, bad, n, hlayout, hs, hbad, hoffset, hposition⟩ :=
      Cursor.layout_of_error htokenize
    have hs : s.toList = lead ++ (Placed.text ws ++ bad) := hs
    have hposition : f.position = Text.byteLength (lead ++ Placed.text ws) + n := by
      simpa [Cursor.ofText] using hposition
    refine ⟨?_, ?_, by simp⟩
    · obtain ⟨before, after, rfl, rfl⟩ := hoffset.exists_append
      have hs : s.toList = (lead ++ Placed.text ws ++ before) ++ after := by simp [hs]
      have hposition : f.position = Text.byteLength (lead ++ Placed.text ws ++ before) := by
        rw [hposition, Text.byteLength_append _ before]
      exact ⟨_, after, hs, hposition, Fault.fragment_within hs hposition⟩
    · rintro f' hf'
      exact ⟨lead, ws, bad, n, hlayout, hs, hbad, hoffset, hposition⟩
  | ok ls =>
    rw [htokenize] at h
    have heof : .eof ∈ Lexemes.tokens ls := by
      obtain ⟨init, p, rfl, _⟩ := Cursor.lexemes_eq_ok htokenize
      simp
    obtain ⟨f, rfl, init, l, more, rfl, ⟨us, cs, hus⟩, hstops, hreported⟩ :=
      Lexemes.query_stops heof h
    refine ⟨?_, by simp, ?_⟩
    · obtain ⟨l', hl', hposition⟩ := hreported.exists_mem
      obtain ⟨before, after, hs, hbefore⟩ := position_of_tokenize htokenize hl'
      have hf : f.position = Text.byteLength before := hposition.symm.trans hbefore
      exact ⟨before, after, hs, hf, Fault.fragment_within hs hf⟩
    · intro ls' hls'
      cases hls'
      exact ⟨init, l, more, rfl, ⟨_, cs, hus, by simp⟩, Lexemes.not_viable_of_query hstops,
        hreported⟩

/-- The query ends after the first item of a list. -/
theorem parse_error_place_open_list :
    let s := "cov('é', ['1'"
    let e : SyntaxError := ⟨.unclosedList, 10, "['1'"⟩
    parse s = .error e ∧
    (∃ before after, s.toList = before ++ after ∧ e.position = Text.byteLength before ∧
      e.fragment = String.ofList (after.take 24)) ∧
    ∀ ls, tokenize s = .ok ls → ∃ init l more, ls = init ++ l :: more ∧
      Viable (Lexemes.tokens init) ∧ ¬ Viable (Lexemes.tokens (init ++ [l])) ∧
      Lexemes.ReportedAt init l e.position := by
  intro s e
  have h : parse s = .error e := by decide +kernel
  obtain ⟨hplace, _, htokens⟩ := parse_error_place h
  exact ⟨h, hplace, htokens⟩

end FilterQuery
