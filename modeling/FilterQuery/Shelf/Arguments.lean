import FilterQuery.Shelf.Listing
import FilterQuery.Shelf.Notice

namespace FilterQuery

/-- What a command line has said so far. -/
structure Arguments where
  file : Option String := none
  query : Option String := none
  explain : Bool := false
  count : Bool := false
  exact : Bool := false
  verbose : Bool := false
  deriving DecidableEq, Repr

namespace Arguments

/-- A file is named once, and has a name. -/
def withFile (a : Arguments) (name : String) : Except Notice Arguments :=
  if a.file.isSome || name.isEmpty then .error .misuse else .ok { a with file := some name }

def withQuery (a : Arguments) (text : String) : Except Notice Arguments :=
  if a.query.isSome then .error .misuse else .ok { a with query := some text }

/-- Each flag is given at most once. -/
def withFlag (a : Arguments) (flag : List Char) : Except Notice Arguments :=
  if flag = "explain".toList && !a.explain then .ok { a with explain := true }
  else if flag = "count".toList && !a.count then .ok { a with count := true }
  else if flag = "exact".toList && !a.exact then .ok { a with exact := true }
  else if flag = "verbose".toList && !a.verbose then .ok { a with verbose := true }
  else .error .misuse

/-- Whether an argument can stand for itself: it is a hyphen alone or begins with none. -/
def isPlain (argument : String) : Bool :=
  match argument.toList with
  | '-' :: _ :: _ => false
  | _ => true

/-- What a row of short options says, and whether a file name must follow it. In the row a file
name may follow its option, with or without an equals sign. -/
def withShort (a : Arguments) : List Char → Except Notice (Arguments × Bool)
  | [] => .ok (a, false)
  | 'h' :: _ => .error .help
  | 'V' :: _ => .error .version
  | 'v' :: cs => do (← a.withFlag "verbose".toList).withShort cs
  | ['f'] => .ok (a, true)
  | 'f' :: '=' :: name => do return (← a.withFile (String.ofList name), false)
  | 'f' :: name => do return (← a.withFile (String.ofList name), false)
  | _ => .error .misuse

def withLong (a : Arguments) (option : List Char) : Except Notice (Arguments × Bool) := do
  match Text.splitAtFirst? '=' option with
  | some (name, value) =>
    if name = "file".toList then return (← a.withFile (String.ofList value), false)
    else .error .misuse
  | none =>
    if option = "help".toList then .error .help
    else if option = "version".toList then .error .version
    else if option = "file".toList then return (a, true)
    else return (← a.withFlag option, false)

/-- Reads the arguments that follow, up to the first that a notice answers; after two hyphens
alone, no argument is an option. -/
def read (a : Arguments) (endOfOptions : Bool) : List String → Except Notice Arguments
  | [] => .ok a
  | argument :: rest =>
    if endOfOptions || isPlain argument then do (← a.withQuery argument).read endOfOptions rest
    else if argument = "--" then a.read true rest
    else do
      let (a, awaitsFile) ← match argument.toList with
        | '-' :: '-' :: option => a.withLong option
        | _ :: options => a.withShort options
        | [] => .error .misuse
      match awaitsFile, rest with
      | false, rest => a.read endOfOptions rest
      | true, name :: rest =>
        if isPlain name then do (← a.withFile name).read endOfOptions rest else .error .misuse
      | true, [] => .error .misuse

/-- The file and the request of a command line, both of which it must name. -/
def parse (arguments : List String) : Except Notice (String × Request) := do
  let a ← ({} : Arguments).read false arguments
  match a.file, a.query with
  | some file, some query =>
    return (file,
      { explain := a.explain, count := a.count, query := query
        nameCase := if a.exact then .exact else .insensitive })
  | _, _ => .error .misuse

end Arguments

end FilterQuery
