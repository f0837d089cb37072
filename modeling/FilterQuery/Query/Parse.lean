import FilterQuery.Outcome
import FilterQuery.Query.Clause
import FilterQuery.Query.Scan

namespace FilterQuery

/-- What is left to parse. -/
abbrev Lexemes := List Lexeme

def Lexemes.head : Lexemes → Lexeme
  | [] => ⟨.eof, 0⟩
  | l :: _ => l

def Atom.ofToken? : Token → Option Atom
  | .quoted s => some (.text s)
  | .null => some .null
  | _ => none

def Lexemes.reject {α : Type} (ls : Lexemes) (problem : Token → Problem) : Except Fault α :=
  .error ⟨problem ls.head.token, ls.head.position⟩

def Lexemes.expect (token : Token) (problem : Token → Problem) (ls : Lexemes) :
    Except Fault Lexemes :=
  match ls with
  | l :: rest => if l.token = token then .ok rest else ls.reject problem
  | [] => ls.reject problem

namespace Lexemes

/-- Reads the tag of an operator; `first` tells whether it opens the query. -/
def operator (first : Bool) : Lexemes → Except Fault (Operator × Lexemes)
  | ⟨.word w, position⟩ :: rest =>
    if first && (Joiner.ofKeyword? w).isSome then .error ⟨.leadingJoiner, position⟩
    else
      match Operator.ofTag? w with
      | some op => .ok (op, rest)
      | none => .error ⟨.unknownFunction w, position⟩
  | ls => ls.reject .expectedFunction

/-- Reads the name of a property, which is not blank. -/
def property : Lexemes → Except Fault (String × Lexemes)
  | ⟨.quoted name, position⟩ :: rest =>
    if Text.Blank name then .error ⟨.emptyProperty, position⟩ else .ok (name, rest)
  | ls => ls.reject .expectedProperty

/-- Reads the items of a list and its closing bracket; a list that the end of the query cuts
short after an item is reported at its opening bracket, which stands at `opening`. -/
def items (opening : Nat) : Lexemes → Except Fault (List Atom × Lexemes)
  | [] => reject [] .expectedLiteral
  | l :: rest =>
    match Atom.ofToken? l.token with
    | none => reject (l :: rest) .expectedLiteral
    | some a =>
      match rest with
      | ⟨.comma, _⟩ :: more =>
        match items opening more with
        | .ok (as, rest) => .ok (a :: as, rest)
        | .error f => .error f
      | ⟨.closeBracket, _⟩ :: more => .ok ([a], more)
      | ⟨.eof, _⟩ :: _ | [] => .error ⟨.unclosedList, opening⟩
      | found :: _ => .error ⟨.expectedListEnd found.token, found.position⟩

def literal : Lexemes → Except Fault (Literal × Lexemes)
  | ⟨.openBracket, position⟩ :: rest =>
    match items position rest with
    | .ok (as, rest) => .ok (.list as, rest)
    | .error f => .error f
  | ls =>
    match Atom.ofToken? ls.head.token with
    | some a => .ok (.single a, ls.tail)
    | none => ls.reject .expectedLiteral

def condition (first : Bool) (ls : Lexemes) : Except Fault (Condition × Lexemes) := do
  let (op, ls) ← operator first ls
  let ls ← expect .openParen .expectedOpening ls
  let (name, ls) ← property ls
  let ls ← expect .comma .expectedComma ls
  let (value, ls) ← literal ls
  let ls ← expect .closeParen .expectedClosing ls
  return (⟨op, name, value⟩, ls)

theorem length_operator {first : Bool} {ls rest : Lexemes} {op : Operator}
    (h : operator first ls = .ok (op, rest)) : rest.length < ls.length := by
  unfold operator at h
  split at h
  · split at h
    · simp at h
    split at h
    · simp at h; simp [h.2]
    · simp at h
  · simp [reject] at h

theorem length_expect {t : Token} {p : Token → Problem} {ls rest : Lexemes}
    (h : expect t p ls = .ok rest) : rest.length < ls.length := by
  unfold expect at h
  split at h
  · split at h
    · simp at h; simp [h]
    · simp [reject] at h
  · simp [reject] at h

theorem length_property {ls rest : Lexemes} {name : String}
    (h : property ls = .ok (name, rest)) : rest.length < ls.length := by
  unfold property at h
  split at h
  · split at h
    · simp at h
    · simp at h; simp [h.2]
  · simp [reject] at h

theorem length_items {opening : Nat} {ls rest : Lexemes} {as : List Atom}
    (h : items opening ls = .ok (as, rest)) : rest.length < ls.length := by
  fun_induction items opening ls generalizing as rest with
  | case1 => simp [reject] at h
  | case2 => simp [reject] at h
  | case3 _ _ _ _ _ _ _ hi ih =>
    simp at h
    have := ih hi
    simp only [List.length_cons, ← h.2]; omega
  | case4 => simp at h
  | case5 => simp at h; simp only [List.length_cons, ← h.2]; omega
  | case6 => simp at h
  | case7 => simp at h
  | case8 => simp at h

theorem length_literal {ls rest : Lexemes} {l : Literal}
    (h : literal ls = .ok (l, rest)) : rest.length < ls.length := by
  unfold literal at h
  split at h
  · split at h
    · next hi =>
      simp at h
      have := length_items hi
      simp only [List.length_cons, ← h.2]; omega
    · simp at h
  · split at h
    · simp at h
      cases ls with
      | nil => simp_all [head, Atom.ofToken?]
      | cons => simp [← h.2]
    · simp [reject] at h

theorem length_condition {first : Bool} {ls rest : Lexemes} {c : Condition}
    (h : condition first ls = .ok (c, rest)) : rest.length < ls.length := by
  simp only [condition, bind_eq_ok_iff, Prod.exists] at h
  obtain ⟨op, ls₁, h₁, ls₂, h₂, name, ls₃, h₃, ls₄, h₄, value, ls₅, h₅, ls₆, h₆, h⟩ := h
  cases h
  have := length_operator h₁
  have := length_expect h₂
  have := length_property h₃
  have := length_expect h₄
  have := length_literal h₅
  have := length_expect h₆
  omega

def clause (source : String) (joiner : Option Joiner) (ls : Lexemes) :
    Except SyntaxError (Clause × Lexemes) :=
  match condition joiner.isNone ls with
  | .error f => .error (f.within source)
  | .ok (c, rest) =>
    match Clause.create joiner c with
    | .ok c => .ok (c, rest)
    | .error e => .error e

theorem length_clause {source : String} {joiner : Option Joiner} {ls rest : Lexemes} {c : Clause}
    (h : clause source joiner ls = .ok (c, rest)) : rest.length < ls.length := by
  unfold clause at h
  split at h
  · simp at h
  · next hc =>
    split at h
    · simp at h
      exact h.2 ▸ length_condition hc
    · simp at h

def joiner? : Token → Option Joiner
  | .word w => Joiner.ofKeyword? w
  | _ => none

def joined (source : String) : Lexemes → Except SyntaxError (List Clause)
  | [] => .ok []
  | l :: rest =>
    if l.token = .eof then .ok []
    else
      match joiner? l.token with
      | none => .error (Fault.within ⟨.expectedJoiner l.token, l.position⟩ source)
      | some j =>
        match h : clause source (some j) rest with
        | .error e => .error e
        | .ok (c, more) =>
          have := length_clause h
          match joined source more with
          | .ok cs => .ok (c :: cs)
          | .error e => .error e
termination_by ls => ls.length
decreasing_by simp only [List.length_cons]; omega

theorem joined_cons (source : String) (l : Lexeme) (ls : Lexemes) :
    joined source (l :: ls) =
      if l.token = .eof then .ok []
      else
        match joiner? l.token with
        | none => .error (Fault.within ⟨.expectedJoiner l.token, l.position⟩ source)
        | some j => do
          let (c, more) ← clause source (some j) ls
          let cs ← joined source more
          return c :: cs := by
  rw [joined]
  split
  · rfl
  · split
    · rfl
    · split
      · next e he => rw [he]; rfl
      · next c more hc =>
        simp only [hc, bind, Except.bind]
        cases joined source more <;> rfl

def query (source : String) (ls : Lexemes) : Except SyntaxError (List Clause) :=
  if ls.head.token = .eof then .ok []
  else do
    let (c, rest) ← clause source none ls
    let cs ← joined source rest
    return c :: cs

end Lexemes

/-- The clauses of a query text; a blank text has none. A text that cannot be split into tokens is
reported for that, whatever the clauses before the place say. -/
def parse (s : String) : Except SyntaxError (List Clause) :=
  match tokenize s with
  | .ok ls => Lexemes.query s ls
  | .error f => .error (f.within s)

end FilterQuery
