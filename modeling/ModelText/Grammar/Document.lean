import ModelText.Grammar.Phrase

/-!
# Documents as written

The grammar of model text. A document is a leading block without a header and then a block for each
section header; a block holds imports first and declarations after them; a declaration is a kind, a
path and a JSON object.

    document     blocks              import   import a::b::*;
    header       ###Name             entry    Kind a::b::Name { "key": value, … }

`Document.read` gives a document as it is written: names and literals are still the characters that
spell them, and what a message or a position may need later is kept as the text from there on. What
the document means is the business of `Grammar.parse`.
-/

namespace ModelText.Grammar

/-! ### What is written -/

/-- A literal without parts: its characters, and the text from its first one on. -/
structure Scalar where
  raw : List Char
  start : List Char
deriving DecidableEq, Repr

/-- A JSON value as written, containers with the text from their opening bracket on. -/
inductive Literal where
  | scalar (s : Scalar)
  | array (start : List Char) (items : List Literal)
  | object (start : List Char) (members : List (Scalar × Literal))
deriving Repr

/-- A declaration as written, with the text from its first character on and the text after it. -/
structure Entry where
  kind : List Char
  path : List Char
  body : List (Scalar × Literal)
  start : List Char
  stop : List Char
deriving Repr

/-- A section as written: its header, the paths it imports and its declarations, with the text from
its first character on and the text after it. -/
structure Block where
  header : Option (List Char)
  imports : List (List Char)
  entries : List Entry
  start : List Char
  stop : List Char
deriving Repr

/-- A document as written. -/
structure Document where
  leading : Block
  sections : List Block
deriving Repr

namespace Phrase

/-! ### Bodies -/

/-- A literal without parts, of the given spelling. -/
def scalar (r : Rule) (l : Lexeme) : Phrase Scalar :=
  rule r do
    let start ← here
    let raw ← lexeme l
    return ⟨raw, start⟩

/-- A string literal. -/
def string : Phrase Scalar :=
  scalar .string stringLiteral

/-- Something, and more of it after commas. -/
def commaSeparated {α : Type} (p : Phrase α) : Phrase (List α) := do
  let first ← p
  blanks
  let more ← many do
    let _ ← token ","
    blanks
    p
  return first :: more

/-- A list between brackets, which may be empty. -/
def bracketed {α : Type} (opening closing : String) (p : Phrase α) : Phrase (List α) :=
  orElse
    (do
      let _ ← token opening
      blanks
      let _ ← token closing
      return [])
    (do
      let _ ← token opening
      blanks
      let all ← commaSeparated p
      blanks
      let _ ← token closing
      return all)

/-- A member of an object. -/
def member (value : Phrase Literal) : Phrase (Scalar × Literal) :=
  rule .member do
    let name ← string
    blanks
    let _ ← token ":"
    blanks
    let v ← value
    return (name, v)

/-- The members of an object, given what their values are. -/
def members (value : Phrase Literal) : Phrase (List (Scalar × Literal)) :=
  rule .object (bracketed "\x7b" "\x7d" (member value))

/-- An object, given what its values are. -/
def object (value : Phrase Literal) : Phrase Literal := do
  let start ← here
  let members ← members value
  return .object start members

/-- An array, given what its values are. -/
def array (value : Phrase Literal) : Phrase Literal :=
  rule .array do
    let start ← here
    let items ← bracketed "[" "]" value
    return .array start items

/-- A scalar of one of the spellings, as a value. -/
def scalarValue (r : Rule) (l : Lexeme) : Phrase Literal := do
  let s ← scalar r l
  return .scalar s

/-- A value with at most `nesting` containers inside each other. -/
def value : Nat → Phrase Literal
  | 0 => never
  | nesting + 1 =>
    orElse (object (value nesting)) <|
    orElse (array (value nesting)) <|
    orElse (scalarValue .string stringLiteral) <|
    orElse (scalarValue .number numberLiteral) <|
    orElse (scalarValue .jsonBool boolLiteral) <|
    scalarValue .jsonNull nullLiteral

/-- The body of a declaration. It has no more containers than the text has characters. -/
def body : Phrase (List (Scalar × Literal)) := fun cs =>
  members (value cs.length) cs

/-! ### Declarations and sections -/

/-- A declaration. -/
def declaration : Phrase Entry :=
  rule .declaration do
    let start ← here
    let kind ← rule .elementKind (lexeme identifier)
    blanks
    let path ← rule .qualifiedName (lexeme qualifiedName)
    blanks
    let body ← body
    let stop ← here
    return ⟨kind, path, body, start, stop⟩

/-- An import, as the path of the imported package. -/
def importStatement : Phrase (List Char) :=
  rule .importStatement do
    let _ ← rule .importKeyword (lexeme importKeyword)
    blanks
    let path ← rule .importPath (lexeme importPath)
    blanks
    let _ ← token ";"
    return path

/-- The header of a section, as the name in it. -/
def sectionHeader : Phrase (List Char) :=
  rule .sectionHeader do
    let _ ← lexeme headerMark
    rule .identifier (lexeme identifier)

/-- The block in front of the first header. -/
def leadingBlock : Phrase Block :=
  rule .leadingSection do
    let start ← here
    let imports ← many importStatement
    blanks
    let entries ← many declaration
    let stop ← here
    return ⟨none, imports, entries, start, stop⟩

/-- A header and the block that belongs to it. -/
def headedBlock : Phrase Block :=
  rule .sectionBlock do
    let start ← here
    let name ← sectionHeader
    blanks
    let imports ← many importStatement
    blanks
    let entries ← many declaration
    let stop ← here
    return ⟨some name, imports, entries, start, stop⟩

/-- The end of the text. -/
def endOfInput : Phrase Unit :=
  rule .endOfInput fun cs => if cs.isEmpty then ⟨some ((), []), id⟩ else ⟨none, id⟩

/-- A whole document. -/
def document : Phrase Document :=
  rule .document do
    blanks
    let leading ← leadingBlock
    blanks
    let sections ← many headedBlock
    blanks
    endOfInput
    return ⟨leading, sections⟩

end Phrase

/-- The document that a text is, or why it is none. -/
def Document.read (text : List Char) : Except GrammarError Document :=
  let reading := Phrase.document text
  match reading.result with
  | some (document, _) => .ok document
  | none =>
    let expected := reading.note ⟨text.length, []⟩
    .error (.parse (.expected expected.listed)
      (Position.after (text.take (text.length - expected.remaining))))

end ModelText.Grammar
