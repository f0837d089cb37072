import FilterQuery.Filter.Compile
import FilterQuery.Shelf.Book

namespace FilterQuery

/-- What is asked of a file of books. -/
structure Request where
  /-- Whether to list the clauses of the query first. -/
  explain : Bool := false
  /-- Whether to print the number of books in place of the books. -/
  count : Bool := false
  nameCase : NameCase := .insensitive
  query : String
  deriving DecidableEq, Repr

inductive ListingError where
  | unreadable (file : String)
  | unparsable (file : String)
  | invalidQuery (error : QueryError)
  deriving DecidableEq, Repr

def ListingError.message : ListingError → String
  | .unreadable file => s!"failed to read {file}"
  | .unparsable file => s!"failed to parse {file}"
  | .invalidQuery _ => "invalid query"

/-- What is printed, and what went wrong after that. -/
structure Listing where
  /-- Each entry is printed with a line feed after it, and can hold line feeds itself. -/
  entries : List String
  error? : Option ListingError := none
  deriving DecidableEq, Repr

def Listing.text (l : Listing) : String :=
  Text.terminated l.entries

/-- A clause after its joiner, which is set to the right in a column of four. -/
def Clause.explain (c : Clause) : String :=
  match c.joiner with
  | some j => String.ofList (List.replicate (4 - j.keyword.length) ' ') ++ j.keyword ++ " " ++
      c.render
  | none => "     " ++ c.render

/-- One entry for each clause of a query, if it can be parsed. -/
def explanation (query : String) : List String :=
  match parse query with
  | .ok cs => cs.map Clause.explain
  | .error _ => []

namespace Request

def options (r : Request) : Options := { nameCase := r.nameCase }

def results {α : Type} (r : Request) (line : α → String) (p : Predicate α)
    (records : List α) : List String :=
  if r.count then [toString (p.count records)] else (p.filter records).map line

def list {α : Type} (r : Request) (s : Schema α) (line : α → String) (records : List α) :
    Listing :=
  let explained := if r.explain then explanation r.query else []
  match r.options.compile s r.query with
  | .ok p => { entries := explained ++ r.results line p records }
  | .error e => { entries := explained, error? := some (.invalidQuery e) }

/-- Lists the books of a file with this text, if it could be read. The query is looked at after
the file. -/
def run (r : Request) (file : String) (text? : Option String) : Listing :=
  match text? with
  | none => { entries := [], error? := some (.unreadable file) }
  | some text =>
    match Book.readAll? text with
    | none => { entries := [], error? := some (.unparsable file) }
    | some books => r.list Book.schema Book.render books

end Request

end FilterQuery
