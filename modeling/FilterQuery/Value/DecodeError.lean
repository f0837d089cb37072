namespace FilterQuery

/-- Why a text is no value of the kind that was asked for. -/
inductive DecodeError where
  | notBool
  | notOneCharacter
  | emptyInteger
  | invalidDigit
  | integerTooLarge
  | integerTooSmall
  | emptyFloat
  | invalidFloat
  | invalidDecimal
  | invalidDateTime
  | invalidDuration
  | durationOutOfRange
  | invalidUuid
  deriving DecidableEq, Repr

def DecodeError.message : DecodeError → String
  | .notBool => "expected 'true' or 'false'"
  | .notOneCharacter => "expected exactly one character"
  | .emptyInteger => "cannot parse integer from empty string"
  | .invalidDigit => "invalid digit found in string"
  | .integerTooLarge => "number too large to fit in target type"
  | .integerTooSmall => "number too small to fit in target type"
  | .emptyFloat => "cannot parse float from empty string"
  | .invalidFloat => "invalid float literal"
  | .invalidDecimal => "invalid decimal literal"
  | .invalidDateTime => "expected an RFC 3339 date/time: invalid text"
  | .invalidDuration => "expected a duration like [-][d.]hh:mm:ss[.fffffffff]"
  | .durationOutOfRange => "duration out of range"
  | .invalidUuid => "invalid uuid"

end FilterQuery
