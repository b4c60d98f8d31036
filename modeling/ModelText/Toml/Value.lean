import ModelText.Json.Binary64
import ModelText.Text.Position

/-!
# TOML values

What a TOML document holds. A table remembers how it came to be (`Toml.Origin`), since that decides
what may still be added to it: a table is written once, and its parts are written in one way.

`Toml.Error` says what is wrong with a document, and where if that is a place in its text.
-/

namespace ModelText.Toml

/-- How a table came to be: under a header of its own, on the way to the table of another header, on
the way to a dotted key, as a value between braces, or on the way to a dotted key inside of one. -/
inductive Origin where
  | header
  | implied
  | dotted
  | inline
  | inlineDotted
deriving DecidableEq, Repr

/-- A floating-point number. -/
inductive Number where
  | finite (x : Binary64)
  | infinite (negative : Bool)
  | nan
deriving DecidableEq, Repr

/-- A value. A date or a time is kept as it is written. -/
inductive Value where
  | string (s : String)
  | integer (n : Int)
  | float (x : Number)
  | bool (b : Bool)
  | datetime (text : String)
  | array (items : List Value)
  | tables (items : List Value)
  | table (origin : Origin) (entries : List (String × Value))
deriving Repr

namespace Value

/-- The name of the kind of a value. -/
def kind : Value → String
  | string _ => "string"
  | integer _ => "integer"
  | float _ => "float"
  | bool _ => "boolean"
  | datetime _ => "datetime"
  | array _ => "array"
  | tables _ => "array of tables"
  | table .. => "table"

end Value

/-- The value of a key among the entries of a table. -/
def lookup (key : String) (entries : List (String × Value)) : Option Value :=
  (entries.find? (·.1 == key)).map (·.2)

/-- Why a document cannot be read. -/
inductive Cause where
  | expected (what : String)
  | duplicateKey (key : String)
  | notExtensible (key kind : String)
  | outOfRange
  | nestedTooDeep
  | wrongKind (wanted found : String)
  | missingField (name : String)
  | unknownVariant (name : String)
deriving DecidableEq, Repr

/-- The wording of a cause. -/
def Cause.message : Cause → String
  | .expected what => s!"expected {what}"
  | .duplicateKey key => s!"duplicate key `{key}`"
  | .notExtensible key kind => s!"key `{key}` attempted to extend a {kind}"
  | .outOfRange => "value is out of range"
  | .nestedTooDeep => "recursion limit exceeded"
  | .wrongKind wanted found => s!"invalid type: {found}, expected {wanted}"
  | .missingField name => s!"missing field `{name}`"
  | .unknownVariant name => s!"unknown variant `{name}`"

/-- A cause, and the place in the document that shows it. -/
structure Error where
  cause : Cause
  position : Option Position
deriving DecidableEq, Repr

/-- The wording of an error. -/
def Error.message (error : Error) : String :=
  match error.position with
  | some p => s!"TOML parse error at line {p.line}, column {p.column}: " ++ error.cause.message
  | none => "TOML parse error: " ++ error.cause.message

end ModelText.Toml
