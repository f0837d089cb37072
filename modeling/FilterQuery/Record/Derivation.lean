import FilterQuery.Record.Declaration
import FilterQuery.Record.Naming
import FilterQuery.Record.Schema
import FilterQuery.Text

namespace FilterQuery

inductive DerivationError where
  | generic
  | noStructure
  | unnamedFields
  | notText (argument : String)
  | unknownRule (name : String)
  | unknownArgument
  | blankRename
  | unknownFieldArgument
  | duplicateName (name : String)
  | noConstant (name : String)
  | takenConstant (name constant : String)
  deriving DecidableEq, Repr

def DerivationError.message : DerivationError → String
  | .generic => "Record cannot be derived for generic structs"
  | .noStructure => "Record can only be derived for structs"
  | .unnamedFields => "Record can only be derived for structs with named fields"
  | .notText argument => s!"{argument} must be a string literal"
  | .unknownRule name =>
    s!"unknown rename_all rule: '{name}'. Expected one of: PascalCase, camelCase, snake_case"
  | .unknownArgument => s!"unknown {attributeName} attribute. Expected: rename_all = \"...\""
  | .blankRename => "rename must not be empty"
  | .unknownFieldArgument =>
    s!"unknown {attributeName} attribute. Expected: skip or rename = \"...\""
  | .duplicateName name => s!"duplicate property name '{name}'"
  | .noConstant name =>
    s!"property name '{name}' has no letters or digits to form a constant name"
  | .takenConstant name constant =>
    s!"property name '{name}' maps to constant {constant} which is already taken; " ++
      "rename one of the fields"

/-- Reads the arguments of a declaration, of which the last rule counts. -/
def readRule (rule? : Option NamingRule) :
    List Argument → Except DerivationError (Option NamingRule)
  | [] => .ok rule?
  | a :: as =>
    match a.path, a.content with
    | "rename_all", .text name =>
      match NamingRule.ofName? name with
      | some rule => readRule (some rule) as
      | none => .error (.unknownRule name)
    | "rename_all", .expression _ => .error (.notText "rename_all")
    | _, _ => .error .unknownArgument

/-- What the arguments of a field say: whether to leave it out, and a name in place of its own. -/
structure FieldSettings where
  skip : Bool := false
  rename : Option String := none
  deriving DecidableEq, Repr

/-- Reads the arguments of a field, of which the last name counts. -/
def FieldSettings.read (s : FieldSettings) :
    List Argument → Except DerivationError FieldSettings
  | [] => .ok s
  | a :: as =>
    match a.path, a.content with
    | "skip", .nothing => FieldSettings.read { s with skip := true } as
    | "rename", .text name =>
      if Text.Blank name then .error .blankRename
      else FieldSettings.read { s with rename := some name } as
    | "rename", .expression _ => .error (.notText "rename")
    | _, _ => .error .unknownFieldArgument

/-- The name of a field without the mark that lets a reserved word be a name. -/
def plainName : List Char → List Char
  | 'r' :: '#' :: cs => plainName cs
  | cs => cs

variable {μ : Type}

def DeclaredField.propertyName (f : DeclaredField μ) (rule? : Option NamingRule)
    (s : FieldSettings) : String :=
  let plain := String.ofList (plainName f.name.toList)
  match s.rename, rule? with
  | some name, _ => name
  | none, some rule => rule.apply plain
  | none, none => plain

/-- A property that is derived from a field, and the constant that holds its name. -/
structure DerivedProperty (μ : Type) where
  name : String
  constant : String
  field : DeclaredField μ
  deriving DecidableEq, Repr

def DeclaredField.property? (f : DeclaredField μ) (rule? : Option NamingRule) :
    Except DerivationError (Option (DerivedProperty μ)) := do
  let s ← ({} : FieldSettings).read (arguments f.attributes)
  let name := f.propertyName rule? s
  return if s.skip then none else some ⟨name, constantName name, f⟩

/-- Accepts a property whose name and constant differ from those before it. -/
def DerivedProperty.check (p : DerivedProperty μ) (earlier : List (DerivedProperty μ)) :
    Except DerivationError Unit :=
  if earlier.any (·.name == p.name) then .error (.duplicateName p.name)
  else if p.constant.toList.all (· == '_') then .error (.noConstant p.name)
  else if earlier.any (·.constant == p.constant) then .error (.takenConstant p.name p.constant)
  else .ok ()

def deriveFields (rule? : Option NamingRule) (earlier : List (DerivedProperty μ)) :
    List (DeclaredField μ) → Except DerivationError (List (DerivedProperty μ))
  | [] => .ok earlier
  | f :: fs => do
    match ← f.property? rule? with
    | none => deriveFields rule? earlier fs
    | some p =>
      p.check earlier
      deriveFields rule? (earlier ++ [p]) fs

namespace Declaration

/-- Whether the declared type is one that properties can be derived for. -/
def checkForm (d : Declaration μ) : Except DerivationError Unit :=
  if d.generic then .error .generic
  else
    match d.form with
    | .named => .ok ()
    | .tuple | .unit => .error .unnamedFields
    | .enumeration | .union => .error .noStructure

/-- The properties of a declared type, in the order of its fields. -/
def properties (d : Declaration μ) : Except DerivationError (List (DerivedProperty μ)) := do
  d.checkForm
  let rule? ← readRule none (arguments d.attributes)
  deriveFields rule? [] d.fields

end Declaration

/-- How a field of a record type is stored and read. -/
structure Member (α : Type) where
  type : FieldType
  read : α → type.Stored

def DerivedProperty.toProperty {α : Type} (p : DerivedProperty (Member α)) : Property α :=
  let m := p.field.member
  ⟨p.name, m.type.descriptor, fun a => m.type.fieldValue (m.read a)⟩

def Schema.ofProperties {α : Type} (ps : List (DerivedProperty (Member α))) : Schema α where
  property? name := (ps.find? (·.name == name)).map (·.toProperty)
  names := ps.map (·.name)

end FilterQuery
