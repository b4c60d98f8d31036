import ModelText.Toml.Scalar
import ModelText.Toml.Table

/-!
# TOML documents

`Toml.read` takes the text of a document to the entries of its root table. The text is a sequence of
lines, each a key with its value, the header of a table or nothing. A key belongs to the table of
the last header in front of it, and is set there right away (`Reader.Progress`).
-/

namespace ModelText.Toml

namespace Reader

/-! ### Values -/

/-- Items with commas between them and after them up to a closing bracket, `fuel` of them at most.
-/
def arrayFrom (value : Reader Value) : Nat → Reader (List Value)
  | 0, cs => expected "a closing bracket" cs
  | fuel + 1, cs =>
    match skipAll cs with
    | ']' :: rest => .ok ([], rest)
    | rest => do
      let (v, rest) ← value rest
      match skipAll rest with
      | ',' :: rest => do
        let (vs, rest) ← arrayFrom value fuel rest
        return (v :: vs, rest)
      | ']' :: rest => .ok ([v], rest)
      | rest => expected "a comma or a closing bracket" rest

/-- A key and its value: the path in front of the last dot, the key after it, and the value. -/
def entry (value : Reader Value) : Reader (List String × String × Value) := fun cs => do
  let (path, rest) ← keys cs
  match rest with
  | '=' :: rest => do
    let (v, rest) ← value (skipBlanks rest)
    return ((path.dropLast, path.getLastD "", v), rest)
  | _ => expected "an equals sign" rest

/-- What a change makes of entries, or a failure where `cs` begins. -/
def changed (change : Change) (entries : Entries) (cs : List Char) : Except Failure Entries :=
  match change .header entries with
  | .ok (_, entries) => .ok entries
  | .error cause => fail cause cs

/-- Entries with commas between them up to a closing brace, `fuel` of them at most. -/
def inlineFrom (value : Reader Value) : Nat → Entries → Reader Entries
  | 0, _, cs => expected "a closing brace" cs
  | fuel + 1, entries, cs => do
    let ((path, key, v), rest) ← entry value cs
    let entries ← changed (setInlineKey path key v) entries cs
    match skipBlanks rest with
    | ',' :: rest => inlineFrom value fuel entries rest
    | '\x7d' :: rest => return (entries, rest)
    | rest => expected "a comma or a closing brace" rest

/-- A table between braces, after the opening one. -/
def inlineTable (value : Reader Value) : Reader Entries := fun cs =>
  match skipBlanks cs with
  | '\x7d' :: rest => .ok ([], rest)
  | rest => inlineFrom value (rest.length + 1) [] rest

/-- A value that is no container. -/
def scalar : Reader Value := fun cs =>
  match cs with
  | '"' :: _ | '\x27' :: _ => do
    let (s, rest) ← string cs
    return (.string s, rest)
  | 't' :: 'r' :: 'u' :: 'e' :: rest => .ok (.bool true, rest)
  | 'f' :: 'a' :: 'l' :: 's' :: 'e' :: rest => .ok (.bool false, rest)
  | _ =>
    match numeric cs with
    | .is v rest => .ok (v, rest)
    | .isNot => expected "a value" cs
    | .isWrong failure => .error failure

/-- A value with at most `nesting` containers inside each other. -/
def value : Nat → Reader Value
  | 0, cs =>
    match cs with
    | '[' :: _ | '\x7b' :: _ => fail .nestedTooDeep cs
    | _ => scalar cs
  | nesting + 1, cs =>
    match cs with
    | '[' :: rest => do
      let (items, rest) ← arrayFrom (value nesting) (rest.length + 1) rest
      return (.array items, rest)
    | '\x7b' :: rest => do
      let (entries, rest) ← inlineTable (value nesting) rest
      return (.table .inline entries, rest)
    | _ => scalar cs

/-! ### Lines -/

/-- A document as far as it is read: the entries of its root, and the path of the last header. -/
structure Progress where
  root : Entries
  path : List String

/-- A key with its value, which belongs to the table of the last header. -/
def keyLine (progress : Progress) : Reader Progress := fun cs => do
  let ((path, key, v), rest) ← entry (value maxNesting) cs
  let root ← changed (underHeader (setKey path key v) progress.path) progress.root cs
  let (_, rest) ← lineTail rest
  return ({ progress with root }, rest)

/-- A header between brackets. -/
def headerLine (opening closing : List Char) (start : String → Change) (progress : Progress) :
    Reader Progress := fun cs => do
  let (path, rest) ← keys (cs.drop opening.length)
  if closing.isPrefixOf rest then
    let (_, rest) ← lineTail (rest.drop closing.length)
    let root ← changed (underHeader (start (path.getLastD "")) path.dropLast) progress.root cs
    return (⟨root, path⟩, rest)
  else expected "a closing bracket" rest

/-- A line, after the blanks that it begins with. -/
def line (progress : Progress) : Reader Progress := fun cs =>
  match cs with
  | '#' :: _ => do
    let (_, rest) ← lineEnd (skipComment cs)
    return (progress, rest)
  | '[' :: '[' :: _ => headerLine ['[', '['] [']', ']'] openArrayTable progress cs
  | '[' :: _ => headerLine ['['] [']'] openTable progress cs
  | c :: _ =>
    if c = '\n' ∨ c = '\r' then do
      let (_, rest) ← lineEnd cs
      return (progress, rest)
    else keyLine progress cs
  | [] => .ok (progress, [])

/-- The lines of a document, `fuel` of them at most. -/
def lines : Nat → Progress → List Char → Except Failure Progress
  | 0, progress, _ => .ok progress
  | fuel + 1, progress, cs =>
    match skipBlanks cs with
    | [] => .ok progress
    | rest => do
      let (progress, rest) ← line progress rest
      lines fuel progress rest

end Reader

/-- The text after a byte order mark, if it begins with one. -/
def skipMark (cs : List Char) : List Char :=
  match cs with
  | c :: rest => if c = '\ufeff' then rest else cs
  | [] => []

/-- The entries of the document that a text is. -/
def read (text : List Char) : Except Error Entries :=
  match Reader.lines (text.length + 1) ⟨[], []⟩ (skipMark text) with
  | .ok progress => .ok progress.root
  | .error failure => .error ⟨failure.cause, some (Position.of text failure.rest)⟩

end ModelText.Toml
