import FilterQuery.Filter.Match
import FilterQuery.Query.Draft
import FilterQuery.Query.Parse

namespace FilterQuery

/-- How the names in a query are matched with those of properties. -/
inductive NameCase where
  | exact
  | insensitive
  deriving DecidableEq, Repr

structure Options where
  nameCase : NameCase := .insensitive
  /-- The greatest length of a query text in bytes. -/
  maxLength : Option Nat := none
  deriving DecidableEq, Repr

variable {α : Type}

/-- The property of a name. Without regard to case, a name that does not resolve as it is stands
for the one listed name that it equals. -/
def Schema.resolve (s : Schema α) (nameCase : NameCase) (name : String) :
    Except QueryError (Property α) :=
  let unknown := .error (.unknownProperty name)
  match s.property? name, nameCase with
  | some p, _ => .ok p
  | none, .exact => unknown
  | none, .insensitive =>
    match s.names.filter (Text.sameIgnoringCase name) with
    | [candidate] =>
      match s.property? candidate with
      | some p => .ok p
      | none => unknown
    | _ => unknown

namespace Options

/-- The predicate of one condition. -/
def compileCondition (o : Options) (s : Schema α) (c : Condition) :
    Except QueryError (Predicate α) := do
  let p ← s.resolve o.nameCase c.property
  let comparison ← c.comparison p.descriptor
  return p.test comparison

def misjoined {β : Type} (problem : Problem) (c : Clause) : Except QueryError β :=
  .error (.malformed ⟨problem, 0, c.render⟩)

/-- Joins further clauses to what the clauses before them say; `number` counts from 1. -/
def compileJoined (o : Options) (s : Schema α) (number : Nat) (sofar : Predicate α) :
    List Clause → Except QueryError (Predicate α)
  | [] => .ok sofar
  | c :: cs => do
    let p ← o.compileCondition s c.toCondition
    match c.joiner with
    | none => misjoined (.unjoined number) c
    | some .and => o.compileJoined s (number + 1) (p.and sofar) cs
    | some .or => o.compileJoined s (number + 1) (p.or sofar) cs

/-- The predicate of a list of clauses, which are joined from the left without precedence. -/
def compileClauses (o : Options) (s : Schema α) : List Clause → Except QueryError (Predicate α)
  | [] => .error .emptyQuery
  | c :: cs =>
    match c.joiner with
    | some j => misjoined (.joinedFirst j) c
    | none => do
      let p ← o.compileCondition s c.toCondition
      o.compileJoined s 2 p cs

/-- The predicate of a query text. Its length is checked before anything in it. -/
def compile (o : Options) (s : Schema α) (text : String) : Except QueryError (Predicate α) :=
  let length := Text.byteLength text.toList
  match o.maxLength.filter (· < length) with
  | some limit => .error (.tooLong length limit)
  | none =>
    match parse text with
    | .error e => .error (.malformed e)
    | .ok cs => o.compileClauses s cs

end Options

def Draft.compile (d : Draft) (s : Schema α) : Except QueryError (Predicate α) :=
  ({} : Options).compile s d.render

end FilterQuery
