namespace FilterQuery

/-- A test that every record passes or fails. -/
structure Predicate (α : Type) where
  holds : α → Bool

namespace Predicate

variable {α : Type}

protected def and (p q : Predicate α) : Predicate α := ⟨fun a => p.holds a && q.holds a⟩

protected def or (p q : Predicate α) : Predicate α := ⟨fun a => p.holds a || q.holds a⟩

def negate (p : Predicate α) : Predicate α := ⟨fun a => !p.holds a⟩

def filter (p : Predicate α) (as : List α) : List α :=
  as.filter p.holds

def count (p : Predicate α) (as : List α) : Nat :=
  as.countP p.holds

def any (p : Predicate α) (as : List α) : Bool :=
  as.any p.holds

def all (p : Predicate α) (as : List α) : Bool :=
  as.all p.holds

def find? (p : Predicate α) (as : List α) : Option α :=
  as.find? p.holds

def position? (p : Predicate α) (as : List α) : Option Nat :=
  as.findIdx? p.holds

end Predicate

end FilterQuery
