import ModelText.Json.Printer
import ModelText.Text.Position
import ModelText.Text.Quoted

/-!
# What can be wrong with JSON text

A reader that cannot go on names a cause and the place: the text still unread, and how many bytes of
it the reader has looked at (`Json.Failure`). Only when the failure is shown do line and column come
in (`Failure.within`), so the readers themselves never count.

The causes are those of the syntax, and those of a text that is JSON but not of the expected shape.
-/

namespace ModelText.Json

/-- What stands in a text where something else was expected. -/
inductive Found where
  | null
  | bool (b : Bool)
  | number (n : Number)
  | string (s : String)
  | sequence
  | map
deriving Repr

/-- The name of what was found. -/
def Found.message : Found → String
  | .null => "null"
  | .bool b => s!"boolean `{b}`"
  | .number (.real x) => "floating point `" ++ String.ofList (realText x) ++ "`"
  | .number n => "integer `" ++ String.ofList n.text ++ "`"
  | .string s => "string " ++ quoted s
  | .sequence => "sequence"
  | .map => "map"

/-- Why a text cannot be read. -/
inductive Cause where
  | endInValue
  | endInList
  | endInObject
  | endInString
  | expectedColon
  | expectedListCommaOrEnd
  | expectedObjectCommaOrEnd
  | expectedWord
  | expectedValue
  | invalidEscape
  | invalidNumber
  | numberOutOfRange
  | controlCharacter
  | keyMustBeString
  | loneSurrogate
  | unfinishedSurrogate
  | trailingComma
  | trailingCharacters
  | nestedTooDeep
  | missingField (name : String)
  | duplicateField (name : String)
  | invalidType (found : Found) (expected : String)
  | invalidLength (found : Nat) (expected : String)
deriving Repr

/-- The wording of a cause. -/
def Cause.message : Cause → String
  | .endInValue => "EOF while parsing a value"
  | .endInList => "EOF while parsing a list"
  | .endInObject => "EOF while parsing an object"
  | .endInString => "EOF while parsing a string"
  | .expectedColon => "expected `:`"
  | .expectedListCommaOrEnd => "expected `,` or `]`"
  | .expectedObjectCommaOrEnd => "expected `,` or `\x7d`"
  | .expectedWord => "expected ident"
  | .expectedValue => "expected value"
  | .invalidEscape => "invalid escape"
  | .invalidNumber => "invalid number"
  | .numberOutOfRange => "number out of range"
  | .controlCharacter => "control character (\\u0000-\\u001F) found while parsing a string"
  | .keyMustBeString => "key must be a string"
  | .loneSurrogate => "lone leading surrogate in hex escape"
  | .unfinishedSurrogate => "unexpected end of hex escape"
  | .trailingComma => "trailing comma"
  | .trailingCharacters => "trailing characters"
  | .nestedTooDeep => "recursion limit exceeded"
  | .missingField name => s!"missing field `{name}`"
  | .duplicateField name => s!"duplicate field `{name}`"
  | .invalidType found expected => "invalid type: " ++ found.message ++ ", expected " ++ expected
  | .invalidLength found expected => s!"invalid length {found}, expected {expected}"

/-- A cause, met `ahead` bytes into the unread text `rest`. -/
structure Failure where
  cause : Cause
  rest : List Char
  ahead : Nat
deriving Repr

/-- A cause and its place, counted in lines and in bytes on the line. -/
structure Error where
  cause : Cause
  position : Position
deriving Repr

/-- The error that a failure is in the text that was read. -/
def Failure.within (text : List Char) (failure : Failure) : Error :=
  ⟨failure.cause, Position.ofBytes text failure.rest failure.ahead⟩

/-- The wording of an error. -/
def Error.message (error : Error) : String :=
  error.cause.message ++ s!" at line {error.position.line} column {error.position.column}"

end ModelText.Json
