import FilterQuery.Proofs.Books
import FilterQuery.Proofs.NameCase
import FilterQuery.Proofs.NormalForm
import FilterQuery.Shelf.Arguments

namespace FilterQuery

namespace Text

@[simp] theorem terminated_cons (e : String) (es : List String) :
    terminated (e :: es) = e ++ "\n" ++ terminated es := by
  simp [terminated]

end Text

/-! ## Explanations as queries -/

namespace Reads

variable {rest : List Char} {ts : List Token}

theorem spaces (n : Nat) (h : Reads rest ts) : Reads (List.replicate n ' ' ++ rest) ts := by
  induction n with
  | zero => exact h
  | succ n ih => exact ih.blank (by decide)

theorem joinedEntries (ts : List Term) :
    Reads (Text.terminated (ts.map fun t =>
      Clause.explain ⟨t.toCondition, some t.joiner⟩)).toList (joinedTokens ts) := by
  induction ts with
  | nil => exact .nil
  | cons t ts ih =>
    have hcondition := ((ih.blank (c := '\n') (by decide)).condition t.toCondition).blank
      (c := ' ') (by decide)
    obtain ⟨hne, hall⟩ := t.joiner.word_keyword
    have hword := (hcondition.word hne hall (by simp; decide)).spaces (4 - t.joiner.keyword.length)
    simpa [joinedTokens, Clause.explain, Clause.render] using hword

theorem entries (d : Draft) :
    Reads (Text.terminated (d.clauses.map Clause.explain)).toList d.tokens := by
  obtain ⟨terms⟩ := d
  cases terms with
  | nil => exact .nil
  | cons t ts =>
    have hrest := (joinedEntries ts).blank (c := '\n') (by decide)
    have hfirst := (hrest.condition t.toCondition).spaces 5
    simpa [Draft.clauses, Draft.tokens, Clause.explain, Clause.render, Function.comp_def]
      using hfirst

end Reads

theorem NormalClauses.parse_entries {cs : List Clause} (h : NormalClauses cs) :
    parse (Text.terminated (cs.map Clause.explain)) = .ok cs := by
  have hreads := Reads.entries (Draft.ofClauses cs)
  rw [Draft.clauses_ofClauses h.wellJoined] at hreads
  exact (parse_eq_ok_iff_of_reads hreads).mpr h.derives

section

variable {text : String} {cs : List Clause}

theorem explanation_of_parse (h : parse text = .ok cs) :
    explanation text = cs.map Clause.explain := by
  rw [explanation, h]

theorem explanation_of_error {e : SyntaxError} (h : parse text = .error e) :
    explanation text = [] := by
  rw [explanation, h]

/-- An explanation is a query with the clauses that it explains. -/
theorem parse_explanation (h : parse text = .ok cs) :
    parse (Text.terminated (explanation text)) = .ok cs := by
  rw [explanation_of_parse h]
  exact (normalClauses_of_parse h).parse_entries

theorem explanation_explanation (h : parse text = .ok cs) :
    explanation (Text.terminated (explanation text)) = explanation text := by
  rw [explanation_of_parse (parse_explanation h), ← explanation_of_parse h]

theorem Clause.head?_explain (c : Clause) : c.explain.toList.head? = some ' ' := by
  unfold explain
  split
  · next j _ =>
    have hpadding : 4 - j.keyword.length = 3 - j.keyword.length + 1 := by
      cases j <;> rfl
    rw [hpadding, List.replicate_succ]
    simp
  · simp

theorem isPlain_explanation (text : String) :
    Arguments.isPlain (Text.terminated (explanation text)) = true := by
  unfold explanation
  split
  · next cs _ =>
    cases cs with
    | nil => rfl
    | cons c cs =>
      obtain ⟨rest, hrest⟩ := List.head?_eq_some_iff.mp c.head?_explain
      simp [Arguments.isPlain, hrest]
  · rfl

end

/-! ## Listings -/

namespace Book

theorem schema_eq {ps : List (DerivedProperty (Member Book))}
    (h : declaration.properties = .ok ps) : schema = .ofProperties ps := by
  unfold schema
  split
  · next hps =>
    cases h.symm.trans hps
    rfl
  · next he => cases h.symm.trans he

theorem exists_schema_eq :
    ∃ ps, declaration.properties = .ok ps ∧ schema = .ofProperties ps := by
  have hps : ∃ ps, declaration.properties = .ok ps :=
    ⟨_, Declaration.properties_eq_ok_iff.mpr
      ⟨⟨rfl, rfl, by decide +kernel⟩, by decide +kernel, rfl⟩⟩
  exact hps.imp fun _ h => ⟨h, schema_eq h⟩

end Book

namespace Options

variable {α : Type} {o o' : Options} {s : Schema α} {text : String} {cs : List Clause}

theorem compile_of_no_limit (ho : o.maxLength = none) (h : parse text = .ok cs) :
    o.compile s text = o.compileClauses s cs := by
  have hshort : ∀ limit ∈ o.maxLength, Text.byteLength text.toList ≤ limit := by
    simp [ho]
  rw [compile_of_short hshort, h]

theorem compile_explanation (ho : o.maxLength = none) (h : parse text = .ok cs) :
    o.compile s (Text.terminated (explanation text)) = o.compile s text := by
  rw [compile_of_no_limit ho h, compile_of_no_limit ho (parse_explanation h)]

/-- What a query selects by the exact names of properties it selects without regard to case. -/
theorem compile_of_exact {p : Predicate α} (ho : o.nameCase = .exact)
    (hlimit : o'.maxLength = o.maxLength) (h : o.compile s text = .ok p) :
    o'.compile s text = .ok p := by
  obtain ⟨hshort, cs, hparse, hcs⟩ := compile_eq_ok_iff.mp h
  have hsame : List.Forall₂ (o.Follows o' s Eq) cs cs :=
    List.forall₂_same.mpr fun c _ => follows_of_exact ho c
  obtain ⟨q, hq, hagree⟩ := compileClauses_agree hsame hcs
  have hpq : p = q := congrArg Predicate.mk (funext fun a => hagree a a rfl)
  rw [compile_eq_ok_iff, hlimit, hpq]
  exact ⟨hshort, cs, hparse, hq⟩

end Options

namespace Request

variable {α : Type} {r : Request} {s : Schema α} {line : α → String} {records : List α}

theorem list_of_ok {p : Predicate α} (h : r.options.compile s r.query = .ok p) :
    r.list s line records =
      ⟨(if r.explain then explanation r.query else []) ++ r.results line p records, none⟩ := by
  rw [list, h]

theorem list_of_error {e : QueryError} (h : r.options.compile s r.query = .error e) :
    r.list s line records =
      ⟨if r.explain then explanation r.query else [], some (.invalidQuery e)⟩ := by
  rw [list, h]

theorem list_explanation {cs : List Clause} (h : parse r.query = .ok cs) :
    { r with query := Text.terminated (explanation r.query) }.list s line records =
      r.list s line records := by
  have hcompile := @Options.compile_explanation α r.options s r.query cs rfl h
  unfold list results options at *
  simp only [explanation_explanation h, hcompile]

theorem list_of_exact (h : ({ r with nameCase := .exact }.list s line records).error? = none) :
    { r with nameCase := .insensitive }.list s line records =
      { r with nameCase := .exact }.list s line records := by
  cases hexact : { r with nameCase := .exact }.options.compile s r.query with
  | error e =>
    rw [list_of_error hexact] at h
    cases h
  | ok p =>
    have hinsensitive : { r with nameCase := .insensitive }.options.compile s r.query = .ok p :=
      Options.compile_of_exact (o := { r with nameCase := .exact }.options) rfl rfl hexact
    rw [list_of_ok hexact, list_of_ok hinsensitive]
    rfl

theorem run_of_books {file text : String} {books : List Book}
    (h : Book.readAll? text = some books) :
    r.run file (some text) = r.list Book.schema Book.render books := by
  simp only [run, h]

theorem exists_compile_of_run {file text : String} {books : List Book}
    (h : Book.readAll? text = some books) (hrun : (r.run file (some text)).error? = none) :
    ∃ p, ({ nameCase := r.nameCase } : Options).compile Book.schema r.query = .ok p := by
  cases hcompile : r.options.compile Book.schema r.query with
  | ok p => exact ⟨p, hcompile⟩
  | error e =>
    rw [run_of_books h, list_of_error hcompile] at hrun
    cases hrun

def lines (p : Predicate Book) (books : List Book) : List String :=
  (books.filter p.holds).map Book.render

theorem results_eq (p : Predicate Book) (books : List Book) :
    r.results Book.render p books =
      if r.count then [toString (lines p books).length] else lines p books := by
  rw [lines, List.length_map, ← List.countP_eq_length_filter]
  rfl

theorem forall₂_line_lines {text : String} {books : List Book}
    (h : Book.readAll? text = some books) (p : Predicate Book) :
    List.Forall₂ Book.Line (books.filter p.holds) (lines p books) := by
  rw [lines, List.forall₂_map_right_iff, List.forall₂_same]
  intro b hb
  exact Book.line_render (Book.loaded_of_readAll? h b (List.mem_of_mem_filter hb))

/-- What is printed for a file are entries with a line feed after each: the clauses of the query if
they are asked for, and then one line of JSON for each book that it selects, in the order of the
file, or the number of these lines. Of a query at fault the clauses are listed at most. The clauses
as they are printed are a query again, for the same clauses, and a query that names properties
exactly lists the same without regard to case. -/
theorem run_faithful {text : String} {books : List Book} (hbooks : Book.readAll? text = some books)
    (r : Request) (file : String) :
    (∃ ps, Book.declaration.properties = .ok ps ∧ Book.schema = .ofProperties ps) ∧
    (r.run file (some text)).text =
      String.join ((r.run file (some text)).entries.map (· ++ "\n")) ∧
    (∀ p, ({ nameCase := r.nameCase } : Options).compile Book.schema r.query = .ok p →
      ∃ cs lines, parse r.query = .ok cs ∧
        List.Forall₂ Book.Line (books.filter p.holds) lines ∧
        r.run file (some text) =
          ⟨(if r.explain then cs.map Clause.explain else []) ++
            (if r.count then [toString lines.length] else lines), none⟩ ∧
        { r with explain := false, count := false }.run file (some text) = ⟨lines, none⟩) ∧
    (∀ e, ({ nameCase := r.nameCase } : Options).compile Book.schema r.query = .error e →
      (∀ cs, parse r.query = .ok cs →
        r.run file (some text) =
          ⟨if r.explain then cs.map Clause.explain else [], some (.invalidQuery e)⟩) ∧
      ∀ f, parse r.query = .error f →
        r.run file (some text) = ⟨[], some (.invalidQuery e)⟩) ∧
    (∀ cs, parse r.query = .ok cs →
      let explained := String.join ((cs.map Clause.explain).map (· ++ "\n"))
      parse explained = .ok cs ∧ Arguments.isPlain explained = true ∧
        { r with query := explained }.run file (some text) = r.run file (some text)) ∧
    (({ r with nameCase := .exact }.run file (some text)).error? = none →
      { r with nameCase := .insensitive }.run file (some text) =
        { r with nameCase := .exact }.run file (some text)) := by
  simp only [run_of_books hbooks]
  refine ⟨Book.exists_schema_eq, rfl, ?selected, ?faulty, ?again, list_of_exact⟩
  case selected =>
    intro p hp
    replace hp : r.options.compile Book.schema r.query = .ok p := hp
    obtain ⟨-, cs, hparse, -⟩ := Options.compile_eq_ok_iff.mp hp
    have hplain : { r with explain := false, count := false }.options.compile Book.schema r.query =
        .ok p := hp
    refine ⟨cs, lines p books, hparse, forall₂_line_lines hbooks p, ?_, list_of_ok hplain⟩
    rw [list_of_ok hp, explanation_of_parse hparse, results_eq]
  case faulty =>
    intro e he
    replace he : r.options.compile Book.schema r.query = .error e := he
    apply And.intro
    · intro cs hparse
      rw [list_of_error he, explanation_of_parse hparse]
    · intro f hparse
      rw [list_of_error he, explanation_of_error hparse, ite_self]
  case again =>
    intro cs hparse
    rw [← explanation_of_parse hparse]
    exact ⟨parse_explanation hparse, isPlain_explanation r.query, list_explanation hparse⟩

def shelf : String :=
  "[[\"Emma\",\"A\",1815,474,null,[],\"1815-12-23T00:00:00Z\",null]," ++
    "[\"Dune\",\"B\",1965,412,4.5,[\"sf\"],\"1965-08-01 03:00:00+03:00\",\"1\"]]"

def dune : String :=
  "\x7b\"title\":\"Dune\",\"author\":\"B\",\"year\":1965,\"pages\":412,\"rating\":4.5," ++
    "\"genres\":[\"sf\"],\"published\":\"1965-08-01T00:00:00Z\",\"series\":\"1\"\x7d"

/-- A listing that is asked for by exact names and with a text that holds a line feed and a quote,
what it lists taken for a query, and one that is asked for by a name that is not exact. -/
theorem run_faithful_shelf :
    let r : Request :=
      { explain := true, nameCase := .exact, query := "sw('Title','D')OR eq('Series', 'a\n\\'')" }
    let inexact : Request := { nameCase := .exact, query := "eq('title', 'Dune')" }
    let clauses := ["     sw('Title', 'D')", "  or eq('Series', 'a\n\\'')"]
    ∃ books, Book.readAll? shelf = some books ∧
      (∃ p b, ({ nameCase := .exact } : Options).compile Book.schema r.query = .ok p ∧
        books.filter p.holds = [b] ∧ b.Line dune) ∧
      r.run "books.json" (some shelf) = ⟨clauses ++ [dune], none⟩ ∧
      { r with query := String.join (clauses.map (· ++ "\n")) }.run "books.json" (some shelf) =
        ⟨clauses ++ [dune], none⟩ ∧
      { r with nameCase := .insensitive }.run "books.json" (some shelf) =
        ⟨clauses ++ [dune], none⟩ ∧
      ∃ e, ({ nameCase := .exact } : Options).compile Book.schema inexact.query = .error e ∧
        inexact.run "books.json" (some shelf) = ⟨[], some (.invalidQuery e)⟩ := by
  intro r inexact clauses
  have hrun : r.run "books.json" (some shelf) = ⟨clauses ++ [dune], none⟩ := by decide +kernel
  have hinexact : (inexact.run "books.json" (some shelf)).error? ≠ none := by decide +kernel
  have hparse : (parse r.query).map (·.map Clause.explain) = .ok clauses := by decide +kernel
  obtain ⟨cs, hcs, hclauses⟩ := map_eq_ok_iff.mp hparse
  cases hbooks : Book.readAll? shelf with
  | none => simp [run, hbooks] at hrun
  | some books =>
    obtain ⟨-, -, selected, faulty, again, hcase⟩ := run_faithful hbooks r "books.json"
    obtain ⟨-, -, selected', faulty', -, -⟩ := run_faithful hbooks inexact "books.json"
    have hinsensitive := (hcase (congrArg Listing.error? hrun)).trans hrun
    refine ⟨books, rfl, ?selects, hrun, ?explained, hinsensitive, ?fails⟩
    case selects =>
      obtain ⟨p, hp⟩ := exists_compile_of_run hbooks (congrArg Listing.error? hrun)
      obtain ⟨cs', lines, hcs', hlines, hlisting, -⟩ := selected p hp
      cases hcs'.symm.trans hcs
      have hentries : clauses ++ [dune] = cs.map Clause.explain ++ lines :=
        congrArg Listing.entries (hrun.symm.trans hlisting)
      rw [hclauses] at hentries
      rw [← List.append_cancel_left hentries] at hlines
      obtain ⟨b, bs, hline, hrest, hbook⟩ := List.forall₂_cons_right_iff.mp hlines
      cases hrest
      exact ⟨p, b, hp, hbook, hline⟩
    case explained =>
      have hagain := (again cs hcs).2.2
      rw [hclauses] at hagain
      exact hagain.trans hrun
    case fails =>
      cases he : ({ nameCase := .exact } : Options).compile Book.schema inexact.query with
      | error e =>
        refine ⟨e, rfl, ?_⟩
        cases hds : parse inexact.query with
        | ok ds => exact (faulty' e he).1 ds hds
        | error f => exact (faulty' e he).2 f hds
      | ok p =>
        obtain ⟨_, _, _, _, hlisting, -⟩ := selected' p he
        exact absurd (congrArg Listing.error? hlisting) hinexact

end Request

end FilterQuery
