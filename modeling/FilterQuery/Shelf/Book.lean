import FilterQuery.Json.Value
import FilterQuery.Json.Write
import FilterQuery.Record.Derivation
import FilterQuery.Value.DateTime.Lenient

namespace FilterQuery

/-- A book as a file describes it. -/
structure Book where
  title : Kind.string.Value
  author : Kind.string.Value
  year : (Kind.integer ⟨true, .w32⟩).Value
  pages : (Kind.integer ⟨false, .w32⟩).Value
  rating : Option (Kind.float .binary32).Value
  genres : List Kind.string.Value
  /-- When the book appeared, on a clock that shows UTC. -/
  published : Kind.dateTime.Value
  series : Option Kind.string.Value

namespace Book

def declaration : Declaration (Member Book) where
  attributes := [⟨attributeName, [⟨"rename_all", .text "PascalCase"⟩]⟩]
  fields :=
    [⟨"title", [], ⟨.plain .string, title⟩⟩,
      ⟨"author", [], ⟨.plain .string, author⟩⟩,
      ⟨"year", [], ⟨.plain (.integer ⟨true, .w32⟩), year⟩⟩,
      ⟨"pages", [], ⟨.plain (.integer ⟨false, .w32⟩), pages⟩⟩,
      ⟨"rating", [], ⟨.optional (.float .binary32), rating⟩⟩,
      ⟨"genres", [], ⟨.sequence .vector .string false, genres⟩⟩,
      ⟨"published", [], ⟨.plain .dateTime, published⟩⟩,
      ⟨"series", [], ⟨.optional .string, series⟩⟩]

def schema : Schema Book :=
  match declaration.properties with
  | .ok ps => .ofProperties ps
  | .error _ => .ofProperties []

/-- A book as one line of JSON. -/
def render (b : Book) : String :=
  Json.renderObject (declaration.fields.map fun f =>
    (f.name, Json.renderFieldValue (f.member.type.fieldValue (f.member.read b))))

end Book

def Kind.Value.ofScalar? (k : Kind) (v : Scalar) : Option k.Value :=
  if h : k.Holds v then some ⟨v, h⟩ else none

/-- An optional value, absent where null is written. -/
def Json.optional? {α : Type} (read : Json → Option α) : Json → Option (Option α)
  | .null => some none
  | j => (read j).map some

namespace Book

def readString? (j : Json) : Option Kind.string.Value := do
  return ⟨.string (← j.string?), trivial⟩

def readYear? (j : Json) : Option (Kind.integer ⟨true, .w32⟩).Value := do
  Kind.Value.ofScalar? _ (.int (← j.integer?))

def readPages? (j : Json) : Option (Kind.integer ⟨false, .w32⟩).Value := do
  let n ← j.integer?
  if n < 0 then none else Kind.Value.ofScalar? _ (.uint n.toNat)

def readRating? (j : Json) : Option (Kind.float .binary32).Value := do
  Kind.Value.ofScalar? _ (.float .binary32 (← j.binary32?))

def readGenres? : Json → Option (List Kind.string.Value)
  | .array items => items.mapM readString?
  | _ => none

/-- Any clock may be written, but the one that is kept shows UTC. -/
def readPublished? (j : Json) : Option Kind.dateTime.Value := do
  let t ← DateTime.readLenient? (← j.string?).toList
  Kind.Value.ofScalar? _ (.dateTime { t with offset := 0 })

def ofItems? : List Json → Option Book
  | [title, author, year, pages, rating, genres, published, series] => do
    return ⟨← readString? title, ← readString? author, ← readYear? year, ← readPages? pages,
      ← Json.optional? readRating? rating, ← readGenres? genres, ← readPublished? published,
      ← Json.optional? readString? series⟩
  | _ => none

/-- The value of a field among named values: the one that has its name, or null if none has it and
the field is optional. -/
def select? (members : List (String × Json)) (f : DeclaredField (Member Book)) : Option Json :=
  match (members.filter (·.1 == f.name)).map (·.2), f.member.type with
  | [j], _ => some j
  | [], .optional _ => some .null
  | _, _ => none

/-- A book is written as an object, in which other names are passed over, or as an array. -/
def ofJson? : Json → Option Book
  | .array items => ofItems? items
  | .object members => do
    let members ← members.mapM fun (name, j) => return (← Json.textOf? name, j)
    ofItems? (← declaration.fields.mapM (select? members))
  | _ => none

def readAll? (text : String) : Option (List Book) :=
  match Json.parse? text with
  | some (.array items) => items.mapM ofJson?
  | _ => none

end Book

end FilterQuery
