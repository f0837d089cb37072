import FilterQuery.Proofs.Json
import FilterQuery.Proofs.Json.Value
import FilterQuery.Proofs.Value.Lenient

namespace FilterQuery

theorem mapM_eq_some_iff {α β : Type} {f : α → Option β} {as : List α} {bs : List β} :
    as.mapM f = some bs ↔ List.Forall₂ (fun a b => f a = some b) as bs := by
  induction as generalizing bs with
  | nil => cases bs <;> simp
  | cons a as ih =>
    rw [List.mapM_cons]
    cases bs with
    | nil => cases f a <;> cases as.mapM f <;> simp
    | cons b bs =>
      rw [List.forall₂_cons, ← ih]
      cases f a <;> cases as.mapM f <;> simp

/-- The members of an object under their names, if the names are texts. -/
def Json.members? : Json → Option (List (String × Json))
  | .object members => members.mapM fun (name, j) => return (← textOf? name, j)
  | _ => none

namespace Book

/-- Whether a JSON value stands for a rating: null if there is none or it is not finite, and else a
number to which it is nearest. -/
inductive ShowsRating : Json → Option (Kind.float .binary32).Value → Prop
  | absent : ShowsRating .null none
  | notFinite {v : (Kind.float .binary32).Value} {x : Binary} :
      v.scalar = .float .binary32 x → BinaryFormat.binary32.infinity ≤ x.magnitude →
      ShowsRating .null (some v)
  | finite {v : (Kind.float .binary32).Value} {x : Binary} {n : Json.Number} :
      v.scalar = .float .binary32 x → x.magnitude < BinaryFormat.binary32.infinity →
      n.toBinary .binary32 = x → ShowsRating (.number n) (some v)

/-- Whether a text is one line with a JSON object in which the fields of a book stand under their
names, each with a value that is read as what the book holds. Reading rounds a rating in steps; here
it is compared with its number as written. -/
structure Line (b : Book) (line : String) : Prop where
  unbroken : '\n' ∉ line.toList
  members : ∃ title author year pages rating genres published series,
    (Json.parse? line).bind Json.members? =
      some [("title", title), ("author", author), ("year", year), ("pages", pages),
        ("rating", rating), ("genres", genres), ("published", published), ("series", series)] ∧
    readString? title = some b.title ∧ readString? author = some b.author ∧
    readYear? year = some b.year ∧ readPages? pages = some b.pages ∧
    ShowsRating rating b.rating ∧ readGenres? genres = some b.genres ∧
    readPublished? published = some b.published ∧
    Json.optional? readString? series = some b.series

/-! ## Books in a file -/

/-- Whether a book can come from a file: its clock shows UTC, and a text can show its moment. -/
def Loaded (b : Book) : Prop :=
  ∃ t, b.published.scalar = .dateTime t ∧ t.offset = 0 ∧ t.Showable ∧
    DateTime.yearInRange t.date.year = true

theorem eq_of_ofScalar? {k : Kind} {v : Scalar} {x : k.Value}
    (h : Kind.Value.ofScalar? k v = some x) : x.scalar = v := by
  unfold Kind.Value.ofScalar? at h
  split at h
  · cases h
    rfl
  · cases h

theorem loaded_of_ofItems? {items : List Json} {b : Book} (h : ofItems? items = some b) :
    b.Loaded := by
  unfold ofItems? at h
  split at h
  · simp only [Option.bind_eq_bind, Option.bind_eq_some_iff] at h
    obtain ⟨_, _, _, _, _, _, _, _, _, _, _, _, published, hpublished, _, _, hb⟩ := h
    cases hb
    simp only [readPublished?, Option.bind_eq_bind, Option.bind_eq_some_iff] at hpublished
    obtain ⟨_, _, t, ht, hscalar⟩ := hpublished
    obtain ⟨hshowable, hyear⟩ := DateTime.showable_of_readLenient? ht
    exact ⟨_, eq_of_ofScalar? hscalar, rfl, ⟨rfl, hshowable.leapSecond⟩, hyear⟩
  · cases h

theorem exists_ofItems? {j : Json} {b : Book} (h : ofJson? j = some b) :
    ∃ items, ofItems? items = some b := by
  unfold ofJson? at h
  split at h
  · exact ⟨_, h⟩
  · simp only [Option.bind_eq_bind, Option.bind_eq_some_iff] at h
    obtain ⟨_, _, items, _, h⟩ := h
    exact ⟨items, h⟩
  · cases h

theorem loaded_of_readAll? {text : String} {books : List Book} (h : readAll? text = some books) :
    ∀ b ∈ books, b.Loaded := by
  unfold readAll? at h
  split at h
  · have hread := (mapM_eq_some_iff.mp h).flip.imp
      (S := fun b _ => b.Loaded ∧ True) fun b j hj => by
        obtain ⟨items, hitems⟩ := exists_ofItems? hj
        exact ⟨loaded_of_ofItems? hitems, trivial⟩
    exact ((List.forall₂_and_left _ _).mp hread).1
  · cases h

/-! ## Lines of books -/

theorem ofScalar?_scalar {k : Kind} (v : k.Value) : Kind.Value.ofScalar? k v.scalar = some v :=
  dif_pos v.holds

section

open Json

def textValue (v : Kind.string.Value) : Json := .string (pointsOf v.scalar.encode)

theorem spells_textValue (v : Kind.string.Value) :
    Json.Spells (renderScalar v.scalar).toList (textValue v) := by
  obtain ⟨scalar, holds⟩ := v
  cases scalar with
  | string s => exact spells_quote s
  | _ => exact holds.elim

theorem readString?_textValue (v : Kind.string.Value) : readString? (textValue v) = some v := by
  obtain ⟨scalar, holds⟩ := v
  cases scalar with
  | string s =>
    rw [readString?, textValue, Json.string?, textOf?_pointsOf]
    rfl
  | _ => exact holds.elim

theorem spells_series (v : Option Kind.string.Value) :
    ∃ j, Json.Spells (renderOptional (v.map (·.scalar))).toList j ∧
      Json.optional? readString? j = some v := by
  cases v with
  | none => exact ⟨.null, spells_null, rfl⟩
  | some v => exact ⟨_, spells_textValue v, congrArg (·.map some) (readString?_textValue v)⟩

theorem spells_genres (vs : List Kind.string.Value) :
    ∃ j, Json.Spells (renderArray (vs.map fun v => renderScalar v.scalar)).toList j ∧
      readGenres? j = some vs := by
  refine ⟨.array (vs.map textValue), spells_renderArray ?_, ?_⟩
  · simp only [List.forall₂_map_left_iff, List.forall₂_map_right_iff, List.forall₂_same]
    exact fun v _ => spells_textValue v
  · simp only [readGenres?, mapM_eq_some_iff, List.forall₂_map_left_iff, List.forall₂_same]
    exact fun v _ => readString?_textValue v

theorem spells_integer (n : Int) :
    ∃ j, Json.Spells (Integer.render n) j ∧ j.integer? = some n :=
  ⟨_, spells_number (Number.writes_integer n), Number.integer?_digits n⟩

theorem spells_year (v : (Kind.integer ⟨true, .w32⟩).Value) :
    ∃ j, Json.Spells (renderScalar v.scalar).toList j ∧ readYear? j = some v := by
  obtain ⟨scalar, holds⟩ := v
  cases scalar with
  | int n =>
    obtain ⟨j, hj, hinteger⟩ := spells_integer n
    refine ⟨j, by simpa [renderScalar, Scalar.encode] using hj, ?_⟩
    rw [readYear?, hinteger]
    exact dif_pos holds
  | uint n => cases holds.1
  | _ => exact holds.elim

theorem spells_pages (v : (Kind.integer ⟨false, .w32⟩).Value) :
    ∃ j, Json.Spells (renderScalar v.scalar).toList j ∧ readPages? j = some v := by
  obtain ⟨scalar, holds⟩ := v
  cases scalar with
  | uint n =>
    obtain ⟨j, hj, hinteger⟩ := spells_integer n
    have hrender : Integer.render n = Text.digits n := if_neg (Int.not_lt.mpr n.cast_nonneg)
    rw [hrender] at hj
    refine ⟨j, by simpa [renderScalar, Scalar.encode] using hj, ?_⟩
    rw [readPages?, hinteger]
    exact dif_pos holds
  | int n => cases holds.1
  | _ => exact holds.elim

theorem spells_rating (v : Option (Kind.float .binary32).Value) :
    ∃ j, Json.Spells (renderOptional (v.map (·.scalar))).toList j ∧ ShowsRating j v := by
  cases v with
  | none => exact ⟨.null, spells_null, .absent⟩
  | some v =>
    obtain ⟨x, hx⟩ : ∃ x, v.scalar = .float .binary32 x := by
      obtain ⟨scalar, holds⟩ := v
      cases scalar with
      | float f x => exact ⟨x, congrArg (Scalar.float · x) holds.1.symm⟩
      | _ => exact holds.elim
    rw [Option.map_some, renderOptional, hx, renderScalar]
    by_cases hfinite : x.magnitude < BinaryFormat.binary32.infinity
    · obtain ⟨n, hwrites, hn⟩ := Number.exists_writes_render layout hfinite
      refine ⟨.number n, ?_, .finite hx hfinite hn⟩
      rw [if_neg (Nat.not_le.mpr hfinite), String.toList_ofList]
      exact spells_number hwrites
    · rw [if_pos (Nat.not_lt.mp hfinite)]
      exact ⟨.null, spells_null, .notFinite hx (Nat.not_lt.mp hfinite)⟩

theorem spells_published {b : Book} (h : b.Loaded) :
    ∃ j, Json.Spells (renderScalar b.published.scalar).toList j ∧
      readPublished? j = some b.published := by
  -- Reading forgets the clock, which is that of UTC already.
  obtain ⟨t, ht, hutc, hshowable, hyear⟩ := h
  have hholds : Kind.dateTime.Holds (.dateTime t) := ht ▸ b.published.holds
  have hread := DateTime.readLenient?_render hutc hholds.1 hshowable hyear
  have hmoment : { t with offset := 0 } = t := by rw [← hutc]
  refine ⟨.string (pointsOf (Scalar.dateTime t).encode), ?_, ?_⟩
  · rw [ht]
    exact spells_quote _
  · rw [readPublished?, Json.string?, textOf?_pointsOf]
    simp [Scalar.encode, hread, hmoment, ← ht, ofScalar?_scalar]

def members (b : Book) : List (String × String) :=
  [("title", renderScalar b.title.scalar), ("author", renderScalar b.author.scalar),
    ("year", renderScalar b.year.scalar), ("pages", renderScalar b.pages.scalar),
    ("rating", renderOptional (b.rating.map (·.scalar))),
    ("genres", renderArray (b.genres.map fun v => renderScalar v.scalar)),
    ("published", renderScalar b.published.scalar),
    ("series", renderOptional (b.series.map (·.scalar)))]

theorem renderFieldValue_optional {k : Kind} (v : Option k.Value) :
    renderFieldValue ((FieldType.optional k).fieldValue v) = renderOptional (v.map (·.scalar)) := by
  cases v <;> rfl

theorem renderFieldValue_sequence {c : Container} {k : Kind} (vs : List k.Value) :
    renderFieldValue ((FieldType.sequence c k false).fieldValue vs) =
      renderArray (vs.map fun v => renderScalar v.scalar) := by
  simp [FieldType.fieldValue, renderFieldValue, renderOptional, Function.comp_def]

theorem render_eq (b : Book) : b.render = renderObject b.members := by
  rw [members, ← renderFieldValue_optional, ← renderFieldValue_optional,
    ← renderFieldValue_sequence (c := .vector)]
  rfl

theorem line_render {b : Book} (h : b.Loaded) : b.Line b.render := by
  obtain ⟨year, hyear, hreadYear⟩ := spells_year b.year
  obtain ⟨pages, hpages, hreadPages⟩ := spells_pages b.pages
  obtain ⟨rating, hrating, hshows⟩ := spells_rating b.rating
  obtain ⟨genres, hgenres, hreadGenres⟩ := spells_genres b.genres
  obtain ⟨published, hpublished, hreadPublished⟩ := spells_published h
  obtain ⟨series, hseries, hreadSeries⟩ := spells_series b.series
  have hmembers : List.Forall₂ (fun m j => Json.Spells m.2.toList j) b.members
      [textValue b.title, textValue b.author, year, pages, rating, genres, published, series] :=
    .cons (spells_textValue b.title) (.cons (spells_textValue b.author) (.cons hyear
      (.cons hpages (.cons hrating (.cons hgenres (.cons hpublished (.cons hseries .nil)))))))
  have hparse := (spells_renderObject hmembers (List.cons_ne_nil _ _)).parse?
  refine ⟨b.unbroken_render.not_mem_lineFeed, textValue b.title, textValue b.author, year, pages,
    rating, genres, published, series, ?_, readString?_textValue _, readString?_textValue _,
    hreadYear, hreadPages, hshows, hreadGenres, hreadPublished, hreadSeries⟩
  rw [render_eq, hparse, Option.bind_some]
  simp [members?, membersOf, members, textOf?_pointsOf]

end

end Book

end FilterQuery
