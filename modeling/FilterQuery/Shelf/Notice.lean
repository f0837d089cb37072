import FilterQuery.Text

namespace FilterQuery

/-- What a command line is answered with in place of a listing. -/
inductive Notice where
  /-- It cannot be understood. -/
  | misuse
  | help
  | version
  deriving DecidableEq, Repr

namespace Notice

def usage : String := "Usage: sift [OPTIONS] --file <FILE> <QUERY>"

def helpLines : List String :=
  ["Filter a JSON file of books with a query",
    "",
    usage,
    "",
    "Arguments:",
    "  <QUERY>  The query, e.g. \"eq('Author', 'Jane Austen')\"",
    "",
    "Options:",
    "  -f, --file <FILE>  JSON file holding an array of books",
    "      --explain      Print the parsed clauses before the results",
    "      --count        Print only the number of matching books",
    "      --exact        Match property names exactly",
    "  -v, --verbose      Log compilation details to stderr",
    "  -h, --help         Print help",
    "  -V, --version      Print version"]

def lines : Notice → List String
  | .misuse => [usage]
  | .help => helpLines
  | .version => ["sift 0.3.0"]

def text (n : Notice) : String :=
  Text.terminated n.lines

end Notice

end FilterQuery
