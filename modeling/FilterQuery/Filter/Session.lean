import FilterQuery.Filter.Compile

namespace FilterQuery

/-- A row and the number under which it entered the session. -/
structure Entry (α : Type) where
  id : Nat
  row : α

/-- A table under examination: rows that come and go, and a stack of predicates about them. -/
structure Session (α : Type) where
  schema : Schema α
  options : Options
  stack : List (Predicate (Entry α))
  entries : List (Entry α)
  /-- The number for the next row; numbers are not used twice. -/
  fresh : Nat

/-- What can be asked of a session. -/
inductive Step (α : Type) where
  | configure (options : Options)
  | compile (text : String)
  | compileDefault (text : String)
  | clauses (cs : Except SyntaxError (List Clause))
  | draft (d : Draft)
  | modulo (divisor remainder : Nat)
  | insert (row : α)
  | and
  | or
  | negate
  | drop
  | filter
  | retain
  | verdicts
  | count
  | any
  | all
  | find
  | position

/-- What a session answers. -/
inductive Reply where
  | done
  | options (o : Options)
  | failed (e : QueryError)
  | tooFewPredicates
  | ids (ids : List Nat)
  | verdicts (bs : List Bool)
  | number (n : Nat)
  | verdict (b : Bool)
  | index (n? : Option Nat)
  deriving DecidableEq, Repr

namespace Session

variable {α : Type}

def start (schema : Schema α) (rows : List α) : Session α where
  schema := schema
  options := {}
  stack := []
  entries := rows.mapIdx fun i r => ⟨i, r⟩
  fresh := rows.length

def ids (s : Session α) : List Nat := s.entries.map (·.id)

/-- Puts a predicate on the stack, or reports why there is none. -/
def push (s : Session α) : Except QueryError (Predicate (Entry α)) → Reply × Session α
  | .ok p => (.done, { s with stack := p :: s.stack })
  | .error e => (.failed e, s)

/-- Answers from the predicate on top of the stack, which stays there. -/
def ask (s : Session α) (f : Predicate (Entry α) → Reply) : Reply × Session α :=
  match s.stack with
  | [] => (.tooFewPredicates, s)
  | p :: _ => (f p, s)

def join (s : Session α)
    (f : Predicate (Entry α) → Predicate (Entry α) → Predicate (Entry α)) : Reply × Session α :=
  match s.stack with
  | p :: q :: rest => (.done, { s with stack := f p q :: rest })
  | _ => (.tooFewPredicates, s)

def step (s : Session α) : Step α → Reply × Session α
  | .configure o => (.options o, { s with options := o })
  | .compile text => s.push (s.options.compile (s.schema.within (·.row)) text)
  | .compileDefault text => s.push (({} : Options).compile (s.schema.within (·.row)) text)
  | .clauses (.error e) => (.failed (.malformed e), s)
  | .clauses (.ok cs) => s.push (s.options.compileClauses (s.schema.within (·.row)) cs)
  | .draft d => s.push (d.compile (s.schema.within (·.row)))
  | .modulo divisor remainder => s.push (.ok ⟨fun e => e.id % divisor == remainder⟩)
  | .insert row =>
    (.done, { s with entries := s.entries ++ [⟨s.fresh, row⟩], fresh := s.fresh + 1 })
  | .and => s.join .and
  | .or => s.join .or
  | .negate =>
    match s.stack with
    | p :: rest => (.done, { s with stack := p.negate :: rest })
    | [] => (.tooFewPredicates, s)
  | .drop =>
    match s.stack with
    | _ :: rest => (.done, { s with stack := rest })
    | [] => (.tooFewPredicates, s)
  | .filter => s.ask fun p => .ids ((p.filter s.entries).map (·.id))
  | .retain =>
    match s.stack with
    | p :: _ => (.done, { s with entries := p.filter s.entries })
    | [] => (.tooFewPredicates, s)
  | .verdicts => s.ask fun p => .verdicts (s.entries.map p.holds)
  | .count => s.ask fun p => .number (p.count s.entries)
  | .any => s.ask fun p => .verdict (p.any s.entries)
  | .all => s.ask fun p => .verdict (p.all s.entries)
  | .find => s.ask fun p => .index ((p.find? s.entries).map (·.id))
  | .position => s.ask fun p => .index (p.position? s.entries)

end Session

end FilterQuery
