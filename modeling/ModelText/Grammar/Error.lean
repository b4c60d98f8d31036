import ModelText.Json.Error

/-!
# Errors of a grammar engine

A text that does not parse is refused at a position, elements that cannot be written are refused
without one, and an engine that may not be entered refuses every call. The wording of each cause is
in `GrammarError.message`.
-/

namespace ModelText

namespace Grammar

/-- The rules of the grammar that a message can name, in the order in which it names them. -/
inductive Rule where
  | endOfInput
  | document
  | leadingSection
  | sectionBlock
  | sectionHeader
  | importStatement
  | importKeyword
  | importPath
  | declaration
  | elementKind
  | qualifiedName
  | identifier
  | object
  | member
  | array
  | jsonBool
  | jsonNull
  | string
  | number
deriving DecidableEq, Repr

namespace Rule

/-- The place of a rule in a message that lists several. -/
def rank : Rule → Nat
  | endOfInput => 0
  | document => 1
  | leadingSection => 2
  | sectionBlock => 3
  | sectionHeader => 4
  | importStatement => 5
  | importKeyword => 6
  | importPath => 7
  | declaration => 8
  | elementKind => 9
  | qualifiedName => 10
  | identifier => 11
  | object => 12
  | member => 13
  | array => 14
  | jsonBool => 15
  | jsonNull => 16
  | string => 17
  | number => 18

/-- The name of a rule in a message. -/
def name : Rule → String
  | endOfInput => "EOI"
  | document => "document"
  | leadingSection => "leading_section"
  | sectionBlock => "section"
  | sectionHeader => "section_header"
  | importStatement => "import_statement"
  | importKeyword => "import_keyword"
  | importPath => "import_path"
  | declaration => "declaration"
  | elementKind => "element_kind"
  | qualifiedName => "qualified_name"
  | identifier => "identifier"
  | object => "object"
  | member => "member"
  | array => "array"
  | jsonBool => "json_bool"
  | jsonNull => "json_null"
  | string => "string"
  | number => "number"

end Rule

/-- Names in a row: `a`, `a or b`, `a, b, or c`. -/
def alternatives : List String → String
  | [] => ""
  | [a] => a
  | [a, b] => a ++ " or " ++ b
  | names => ", ".intercalate names.dropLast ++ ", or " ++ names.getLastD ""

/-- Why a text does not parse. -/
inductive ParseCause where
  | nestedTooDeep (limit : Nat)
  | expected (rules : List Rule)
  | invalidLiteral (error : Json.Error)
  | other (message : String)
deriving Repr

/-- The wording of a cause. -/
def ParseCause.message : ParseCause → String
  | .nestedTooDeep limit => s!"nesting exceeds {limit} levels"
  | .expected rules => "expected " ++ alternatives (rules.map Rule.name)
  | .invalidLiteral error => "invalid literal: " ++ error.message
  | .other message => message

/-- Why elements cannot be written as text. -/
inductive ComposeCause where
  | severalSectionIndexes
  | invalidParserName (name : String)
  | invalidImport (path : String)
  | invalidKind (kind : String)
  | invalidPath (path : String)
  | bodyTooDeep (path : String) (limit : Nat)
  | other (message : String)
deriving DecidableEq, Repr

/-- The wording of a cause. -/
def ComposeCause.message : ComposeCause → String
  | .severalSectionIndexes => "cannot compose more than one section index"
  | .invalidParserName name => "invalid section parser name: " ++ quoted name
  | .invalidImport path => "invalid import path: " ++ quoted path
  | .invalidKind kind => "invalid element kind: " ++ quoted kind
  | .invalidPath path => "invalid element path: " ++ quoted path
  | .bodyTooDeep path limit => s!"body of {path} nests deeper than {limit} levels"
  | .other message => message

end Grammar

/-- What a grammar engine answers instead of a result. -/
inductive GrammarError where
  | parse (cause : Grammar.ParseCause) (position : Position)
  | compose (cause : Grammar.ComposeCause)
  | lock
deriving Repr

/-- The wording of an error. -/
def GrammarError.message : GrammarError → String
  | .parse cause position =>
    s!"parse error at {position.line}:{position.column}: " ++ cause.message
  | .compose cause => "compose error: " ++ cause.message
  | .lock => "lock poisoned: poisoned lock: another task failed inside"

end ModelText
