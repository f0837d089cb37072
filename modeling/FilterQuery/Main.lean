import FilterQuery.Shelf.Arguments

namespace FilterQuery

def readText (file : String) : IO (Except String String) := do
  try return .ok (← IO.FS.readFile file)
  catch e => return .error (toString e)

/-- What is reported beneath an error; `unreadable` tells why the file could not be read. -/
def ListingError.cause (unreadable : String) : ListingError → String
  | .unreadable _ => unreadable
  | .unparsable _ => "the file holds no list of books"
  | .invalidQuery e => e.message

end FilterQuery

open FilterQuery

def main (arguments : List String) : IO UInt32 := do
  match Arguments.parse arguments with
  | .error .misuse =>
    IO.eprint Notice.misuse.text
    return 2
  | .error notice =>
    IO.print notice.text
    return 0
  | .ok (file, request) =>
    let (text?, reason) := match ← readText file with
      | .ok text => (some text, "")
      | .error reason => (none, reason)
    let listing := request.run file text?
    IO.print listing.text
    match listing.error? with
    | none => return 0
    | some e =>
      IO.eprintln s!"Error: {e.message}\n\nCaused by:\n    {e.cause reason}"
      return 1
