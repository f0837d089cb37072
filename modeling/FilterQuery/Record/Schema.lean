import FilterQuery.Record.Field

namespace FilterQuery

/-- A property of records: its name, its declared type, and how it is read. -/
structure Property (α : Type) where
  name : String
  descriptor : Descriptor
  read : α → FieldValue

/-- What a query can ask of a type of records. The names that are listed need not be those that
resolve. -/
structure Schema (α : Type) where
  property? : String → Option (Property α)
  names : List String

/-- The same property of a larger record. -/
def Property.within {α β : Type} (f : β → α) (p : Property α) : Property β :=
  ⟨p.name, p.descriptor, fun b => p.read (f b)⟩

def Schema.within {α β : Type} (f : β → α) (s : Schema α) : Schema β :=
  ⟨fun name => (s.property? name).map (·.within f), s.names⟩

/-- One column of a table. -/
structure Column where
  name : String
  type : FieldType
  resolves : Bool := true
  listed : Bool := true
  deriving DecidableEq, Repr

def Row : List Column → Type
  | [] => Unit
  | c :: cs => c.type.Stored × Row cs

def Row.property? : (cs : List Column) → String → Option (Property (Row cs))
  | [], _ => none
  | c :: cs, name =>
    if c.resolves && c.name == name then
      some ⟨c.name, c.type.descriptor, fun r => c.type.fieldValue r.1⟩
    else (Row.property? cs name).map (·.within (·.2))

def Schema.ofColumns (cs : List Column) : Schema (Row cs) where
  property? := Row.property? cs
  names := (cs.filter (·.listed)).map (·.name)

end FilterQuery
