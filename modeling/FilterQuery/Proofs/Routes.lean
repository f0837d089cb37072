import FilterQuery.Proofs.Joining
import FilterQuery.Proofs.Layout
import FilterQuery.Proofs.Printing
import FilterQuery.Proofs.Validation

namespace FilterQuery

/-- Whether an error says that a single condition does not fit the records. -/
def QueryError.AboutCondition : QueryError → Prop
  | .unknownProperty _ | .coercion .. | .unsupported .. => True
  | _ => False

namespace Condition

variable {c : Condition} {d : Descriptor} {e : QueryError}

theorem aboutCondition_of_rejectNull (h : c.rejectNull d = .error e) : e.AboutCondition := by
  simp only [rejectNull, nullNotAllowed] at h
  split at h
  · cases h
    trivial
  · cases h

theorem aboutCondition_of_path (h : c.path d = .error e) : e.AboutCondition := by
  simp only [path, unsupported] at h
  repeat' split at h
  all_goals cases h <;> trivial

theorem aboutCondition_of_comparison (h : c.comparison d = .error e) : e.AboutCondition := by
  cases hnull : c.rejectNull d with
  | error e' =>
    rw [comparison_rejectNull hnull] at h
    cases h
    exact aboutCondition_of_rejectNull hnull
  | ok =>
    cases hpath : c.path d with
    | error e' =>
      rw [comparison_path hnull hpath] at h
      cases h
      exact aboutCondition_of_path hpath
    | ok p =>
      cases hcoerce : c.coerce d with
      | error e' =>
        rw [comparison_coerce hnull hpath hcoerce] at h
        cases h
        obtain ⟨_, _, _, _, _, _, _, rfl⟩ := (coerce_eq_error_iff hnull).mp hcoerce
        trivial
      | ok v =>
        obtain ⟨m, hm, _⟩ := comparison_ok hnull hpath hcoerce
        rw [hm] at h
        cases h

end Condition

theorem Schema.aboutCondition_of_resolve {α : Type} {s : Schema α} {nameCase : NameCase}
    {name : String} {e : QueryError} (h : s.resolve nameCase name = .error e) :
    e.AboutCondition := by
  simp only [resolve] at h
  repeat' split at h
  all_goals cases h <;> trivial

theorem Options.aboutCondition_of_compileCondition {α : Type} {o : Options} {s : Schema α}
    {c : Condition} {e : QueryError} (h : o.compileCondition s c = .error e) :
    e.AboutCondition := by
  rcases bind_eq_error_iff.mp h with h | ⟨p, _, h⟩
  · exact Schema.aboutCondition_of_resolve h
  · rcases bind_eq_error_iff.mp h with h | ⟨m, _, h⟩
    · exact Condition.aboutCondition_of_comparison h
    · cases h

/-! ## Clauses that are read from a text -/

theorem DerivesJoined.joiner_ne_none {ts : List Token} {cs : List Clause}
    (h : DerivesJoined ts cs) : ∀ c ∈ cs, c.joiner ≠ none := by
  induction h with
  | nil => simp
  | cons _ _ _ ih => simpa using ih

theorem DerivesQuery.wellJoined {ts : List Token} {cs : List Clause} (h : DerivesQuery ts cs) :
    WellJoined cs := by
  intro i c hc
  cases h with
  | empty => simp at hc
  | clauses _ hj =>
    cases i with
    | zero =>
      cases hc
      simp
    | succ i => simpa using hj.joiner_ne_none c (List.mem_of_getElem? hc)

theorem wellJoined_of_parse {text : String} {cs : List Clause} (h : parse text = .ok cs) :
    WellJoined cs := by
  obtain ⟨_, _, _, hcs⟩ := parse_eq_ok_iff.mp h
  exact hcs.wellJoined

theorem tokenize_eq_eof_iff {text : String} :
    (∃ p, tokenize text = .ok [⟨.eof, p⟩]) ↔ Text.Blank text = true := by
  rw [Text.Blank, List.all_eq_true]
  apply Iff.intro
  · intro h
    obtain ⟨p, h⟩ := h
    obtain ⟨lead, ws, hlayout, htext, hws⟩ := Cursor.layout_of_lexemes h
    cases ws with
    | nil =>
      have htext : text.toList = lead ++ [] := htext
      rw [htext, List.append_nil]
      exact hlayout.lead
    | cons w ws => cases ws <;> simp [Placed.lexemes] at hws
  · intro h
    have hlexemes := Cursor.lexemes_layout (p := 0) (Layout.nil h)
    simp only [Placed.text, List.flatMap_nil, List.append_nil] at hlexemes
    exact ⟨_, hlexemes⟩

theorem parse_eq_nil_iff {text : String} : parse text = .ok [] ↔ Text.Blank text = true := by
  rw [parse_eq_ok_iff, ← tokenize_eq_eof_iff]
  apply Iff.intro
  · intro h
    obtain ⟨ls, p, hls, hd⟩ := h
    generalize hts : Lexemes.tokens ls = ts at hd
    cases hd
    rw [Lexemes.tokens_eq_nil_iff.mp hts] at hls
    exact ⟨p, hls⟩
  · intro h
    obtain ⟨p, hp⟩ := h
    exact ⟨[], p, hp, .empty⟩

namespace Options

variable {α : Type} {o : Options} {s : Schema α} {text : String}

theorem fault?_of_wellJoined {i : Nat} {c : Clause} {e : QueryError}
    (hc : c.joiner = none ↔ i = 0) (h : o.fault? s i c = some e) : e.AboutCondition := by
  simp only [fault?, compileClauses_alone] at h
  cases hp : o.compileCondition s c.toCondition with
  | error e' =>
    have he : e' = e := by
      rw [hp] at h
      cases i <;> cases hj : c.joiner <;> simp_all
    exact he ▸ aboutCondition_of_compileCondition hp
  | ok p =>
    rw [hp] at h
    cases i <;> cases hj : c.joiner <;> simp_all

theorem compileClauses_error_of_wellJoined {cs : List Clause} {e : QueryError}
    (hcs : WellJoined cs) (h : o.compileClauses s cs = .error e) :
    cs = [] ∧ e = .emptyQuery ∨ e.AboutCondition := by
  rcases compileClauses_eq_error_iff.mp h with h | ⟨i, c, hc, hfault, _⟩
  · exact .inl h
  · rw [Nat.zero_add] at hfault
    exact .inr (fault?_of_wellJoined (hcs i c hc) hfault)

theorem compile_of_tooLong {limit : Nat} (hlimit : o.maxLength = some limit)
    (h : limit < Text.byteLength text.toList) :
    o.compile s text = .error (.tooLong (Text.byteLength text.toList) limit) := by
  simp [compile, hlimit, Option.filter, h]

theorem compile_of_short (h : ∀ limit ∈ o.maxLength, Text.byteLength text.toList ≤ limit) :
    o.compile s text =
      match parse text with
      | .error e => .error (.malformed e)
      | .ok cs => o.compileClauses s cs := by
  have hfilter : o.maxLength.filter (· < Text.byteLength text.toList) = none := by
    rw [Option.filter_eq_none_iff]
    intro limit hlimit
    simpa using h limit hlimit
  cases hparse : parse text <;> simp only [compile, hfilter, hparse]

theorem exists_limit_of_not_short
    (h : ¬ ∀ limit ∈ o.maxLength, Text.byteLength text.toList ≤ limit) :
    ∃ limit, o.maxLength = some limit ∧ limit < Text.byteLength text.toList := by
  simpa only [Option.mem_def, not_forall, Nat.not_le, exists_prop] using h

theorem compile_eq_ok_iff {p : Predicate α} :
    o.compile s text = .ok p ↔
      (∀ limit ∈ o.maxLength, Text.byteLength text.toList ≤ limit) ∧
        ∃ cs, parse text = .ok cs ∧ o.compileClauses s cs = .ok p := by
  apply Iff.intro
  · intro h
    by_cases hshort : ∀ limit ∈ o.maxLength, Text.byteLength text.toList ≤ limit
    · rw [compile_of_short hshort] at h
      cases hparse : parse text with
      | error e => simp [hparse] at h
      | ok cs => exact ⟨hshort, cs, rfl, by simpa [hparse] using h⟩
    · obtain ⟨limit, hlimit, hlong⟩ := exists_limit_of_not_short hshort
      rw [compile_of_tooLong hlimit hlong] at h
      cases h
  · intro h
    obtain ⟨hshort, cs, hparse, hcs⟩ := h
    rw [compile_of_short hshort, hparse]
    exact hcs

theorem error_of_compile_short {e : QueryError}
    (hshort : ∀ limit ∈ o.maxLength, Text.byteLength text.toList ≤ limit)
    (h : o.compile s text = .error e) :
    (∃ f, parse text = .error f ∧ e = .malformed f) ∨
      Text.Blank text = true ∧ e = .emptyQuery ∨ e.AboutCondition := by
  rw [compile_of_short hshort] at h
  cases hparse : parse text with
  | error f =>
    rw [hparse] at h
    cases h
    exact .inl ⟨f, rfl, rfl⟩
  | ok cs =>
    rw [hparse] at h
    rcases compileClauses_error_of_wellJoined (wellJoined_of_parse hparse) h with ⟨rfl, he⟩ | he
    · exact .inr (.inl ⟨parse_eq_nil_iff.mp hparse, he⟩)
    · exact .inr (.inr he)

theorem compile_eq_tooLong_iff {n limit : Nat} :
    o.compile s text = .error (.tooLong n limit) ↔
      o.maxLength = some limit ∧ n = Text.byteLength text.toList ∧ limit < n := by
  apply Iff.intro
  · intro h
    by_cases hshort : ∀ limit ∈ o.maxLength, Text.byteLength text.toList ≤ limit
    · rcases error_of_compile_short hshort h with ⟨f, _, he⟩ | ⟨_, he⟩ | he
      · cases he
      · cases he
      · exact he.elim
    · obtain ⟨limit', hlimit, hlong⟩ := exists_limit_of_not_short hshort
      rw [compile_of_tooLong hlimit hlong] at h
      cases h
      exact ⟨hlimit, rfl, hlong⟩
  · rintro ⟨hlimit, rfl, hlong⟩
    exact compile_of_tooLong hlimit hlong

section

variable (hshort : ∀ limit ∈ o.maxLength, Text.byteLength text.toList ≤ limit)

include hshort

theorem compile_eq_emptyQuery_iff :
    o.compile s text = .error .emptyQuery ↔ Text.Blank text = true := by
  apply Iff.intro
  · intro h
    rcases error_of_compile_short hshort h with ⟨f, _, he⟩ | ⟨hblank, _⟩ | he
    · cases he
    · exact hblank
    · exact he.elim
  · intro h
    rw [compile_of_short hshort, parse_eq_nil_iff.mpr h]
    rfl

theorem compile_eq_malformed_iff {e : SyntaxError} :
    o.compile s text = .error (.malformed e) ↔ parse text = .error e := by
  apply Iff.intro
  · intro h
    rcases error_of_compile_short hshort h with ⟨f, hf, he⟩ | ⟨_, he⟩ | he
    · cases he
      exact hf
    · cases he
    · exact he.elim
  · intro h
    rw [compile_of_short hshort, h]

end

end Options

/-! ## Drafts -/

theorem Clause.create_eq_ok_iff {j : Option Joiner} {c : Condition} {d : Clause} :
    create j c = .ok d ↔
      (Text.Blank c.property = false ∧ c.literal ≠ .list []) ∧ d = ⟨c, j⟩ := by
  simp only [create]
  cases hblank : Text.Blank c.property with
  | true => simp
  | false =>
    by_cases hlist : c.literal = .list []
    · simp [hlist]
    · simp [hlist, eq_comm]

theorem Clause.mapM_create_eq_ok {cs ds : List Clause}
    (h : cs.mapM (fun c => create c.joiner c.toCondition) = .ok ds) :
    ds = cs ∧ ∀ c ∈ cs, Text.Blank c.property = false ∧ c.literal ≠ .list [] := by
  induction cs generalizing ds with
  | nil =>
    cases h
    simp
  | cons c cs ih =>
    rw [List.mapM_cons] at h
    obtain ⟨d, hd, h⟩ := bind_eq_ok_iff.mp h
    obtain ⟨ds', hds, h⟩ := bind_eq_ok_iff.mp h
    cases h
    obtain ⟨hc, rfl⟩ := create_eq_ok_iff.mp hd
    obtain ⟨rfl, hcs⟩ := ih hds
    exact ⟨rfl, List.forall_mem_cons.mpr ⟨hc, hcs⟩⟩

theorem Literal.readBack_eq {l : Literal} (h : .text nullText ∉ l.atoms) : l.readBack = l := by
  have hatom {a : Atom} (ha : a ≠ .text nullText) : a.readBack = a := by
    cases a with
    | null => rfl
    | text s =>
      rw [Atom.readBack, if_neg]
      rintro rfl
      exact ha rfl
  cases l with
  | single a =>
    rw [readBack, hatom]
    rintro rfl
    exact h (List.mem_singleton.mpr rfl)
  | list as =>
    rw [readBack, List.map_congr_left (g := id), List.map_id]
    intro a ha
    apply hatom
    rintro rfl
    exact h ha

namespace Draft

variable {α : Type} {d : Draft}

theorem clauses_eq_mapIdx (d : Draft) :
    d.clauses = d.terms.mapIdx fun i t =>
      ⟨t.toCondition, if i = 0 then none else some t.joiner⟩ := by
  obtain ⟨terms⟩ := d
  cases terms with
  | nil => rfl
  | cons t ts =>
    simp only [clauses, List.mapIdx_cons]
    exact congrArg _ (List.ext_getElem (by simp) (by simp))

theorem map_clauses (d : Draft) :
    d.clauses.map Clause.toCondition = d.terms.map Term.toCondition := by
  obtain ⟨terms⟩ := d
  cases terms with
  | nil => rfl
  | cons t ts => simp [clauses]

theorem readBack_eq_clauses (h : ∀ t ∈ d.terms, .text nullText ∉ t.literal.atoms) :
    d.readBack = d.clauses := by
  rw [clauses_eq_mapIdx, readBack, List.mapIdx_eq_mapIdx_iff]
  intro i hi
  have hread := Literal.readBack_eq (h d.terms[i] (List.getElem_mem hi))
  rw [Condition.readBack, hread]

theorem parse_render_of_create {cs : List Clause}
    (hcs : d.clauses.mapM (fun c => Clause.create c.joiner c.toCondition) = .ok cs)
    (h : ∀ t ∈ d.terms, t.property ≠ nullText ∧ .text nullText ∉ t.literal.atoms) :
    parse d.render = .ok cs := by
  obtain ⟨rfl, haccepted⟩ := Clause.mapM_create_eq_ok hcs
  rw [parse_render_eq_ok_iff, readBack_eq_clauses fun t ht => (h t ht).2]
  refine ⟨?_, rfl⟩
  intro t ht
  have hmem : t.toCondition ∈ d.clauses.map Clause.toCondition := by
    rw [map_clauses]
    exact List.mem_map_of_mem ht
  obtain ⟨c, hc, hct⟩ := List.mem_map.mp hmem
  obtain ⟨hblank, hlist⟩ := haccepted c hc
  rw [hct] at hblank hlist
  exact ⟨hblank, (h t ht).1, hlist⟩

end Draft

/-- A text is rejected for its length before anything in it. One that is not too long has no
clauses if and only if it is blank, and its only syntax error is that of reading it. A draft whose
terms are acceptable and do not use the reserved word gives what its clauses give. -/
theorem Options.compile_routes {α : Type} (o : Options) (s : Schema α) :
    (∀ text n limit, o.compile s text = .error (.tooLong n limit) ↔
      o.maxLength = some limit ∧ n = Text.byteLength text.toList ∧ limit < n) ∧
    (∀ text, (∀ limit ∈ o.maxLength, Text.byteLength text.toList ≤ limit) →
      (o.compile s text = .error .emptyQuery ↔ Text.Blank text = true) ∧
      ∀ e, o.compile s text = .error (.malformed e) ↔ parse text = .error e) ∧
    ∀ (d : Draft) cs,
      d.clauses.mapM (fun c => Clause.create c.joiner c.toCondition) = .ok cs →
      (∀ t ∈ d.terms, t.property ≠ nullText ∧ .text nullText ∉ t.literal.atoms) →
      d.compile s = ({} : Options).compileClauses s cs := by
  refine ⟨fun _ _ _ => compile_eq_tooLong_iff, ?_, ?_⟩
  · intro text hshort
    exact ⟨compile_eq_emptyQuery_iff hshort, fun e => compile_eq_malformed_iff hshort⟩
  · intro d cs hcs h
    have hshort : ∀ limit ∈ ({} : Options).maxLength, Text.byteLength d.render.toList ≤ limit := by
      simp
    rw [Draft.compile, compile_of_short hshort, Draft.parse_render_of_create hcs h]

def players : List Column :=
  [{ name := "score", type := .plain (.integer ⟨true, .w16⟩) },
    { name := "nickname", type := .optional .string }]

/-- A query whose name and value are full of what separates clauses. -/
def trickyDraft : Draft :=
  ⟨[⟨⟨.notEqual, "score", .single (.text "-7")⟩, .or⟩,
    ⟨⟨.oneOf, "nickname", .list [.text "', ') or eq('score", .null]⟩, .and⟩]⟩

theorem Options.compile_routes_tricky :
    let cs : List Clause :=
      [⟨⟨.notEqual, "score", .single (.text "-7")⟩, none⟩,
        ⟨⟨.oneOf, "nickname", .list [.text "', ') or eq('score", .null]⟩, some .and⟩]
    trickyDraft.clauses.mapM (fun c => Clause.create c.joiner c.toCondition) = .ok cs ∧
    (∀ t ∈ trickyDraft.terms, t.property ≠ nullText ∧ .text nullText ∉ t.literal.atoms) ∧
    trickyDraft.compile (.ofColumns players) =
      ({} : Options).compileClauses (.ofColumns players) cs := by
  intro cs
  have hcs : trickyDraft.clauses.mapM (fun c => Clause.create c.joiner c.toCondition) = .ok cs :=
    rfl
  have h : ∀ t ∈ trickyDraft.terms, t.property ≠ nullText ∧ .text nullText ∉ t.literal.atoms := by
    decide
  exact ⟨hcs, h, (Options.compile_routes {} (.ofColumns players)).2.2 _ cs hcs h⟩

end FilterQuery
