import ModelText.Json.Reader
import ModelText.Toml.Value

/-!
# The text of TOML keys and strings

The parts of a TOML document below its values: blanks, line ends and comments, strings in their four
forms, and keys. A reader takes something off the front of the text or says what it expected there
(`Toml.Reader`).
-/

namespace ModelText.Toml

/-- What a reader met, and the text from there on. -/
structure Failure where
  cause : Cause
  rest : List Char
deriving Repr

/-- Reads something from the front of a text. -/
abbrev Reader (α : Type) : Type := List Char → Except Failure (α × List Char)

namespace Reader

/-- Fails where `rest` begins. -/
def fail {α : Type} (cause : Cause) (rest : List Char) : Except Failure α :=
  .error ⟨cause, rest⟩

/-- Fails for want of something. -/
def expected {α : Type} (what : String) (rest : List Char) : Except Failure α :=
  fail (.expected what) rest

/-! ### Blanks, comments and line ends -/

/-- The characters between the tokens of a line. -/
def isBlank (c : Char) : Bool :=
  c == ' ' || c == '\t'

/-- The text after its blanks. -/
def skipBlanks (cs : List Char) : List Char :=
  cs.dropWhile isBlank

/-- The characters of comments: tabs, and everything that is not a control. -/
def isCommentChar (c : Char) : Bool :=
  c == '\t' || (0x20 ≤ c.toNat && c.toNat != 0x7f)

/-- The text after its comment, if it begins with one. -/
def skipComment (cs : List Char) : List Char :=
  match cs with
  | '#' :: rest => rest.dropWhile isCommentChar
  | _ => cs

/-- What follows a line end, if the text begins with one. -/
def afterNewline : List Char → Option (List Char)
  | '\n' :: rest => some rest
  | '\r' :: '\n' :: rest => some rest
  | _ => none

/-- A line end, or the end of the text. -/
def lineEnd : Reader Unit := fun cs =>
  match cs with
  | [] => .ok ((), [])
  | _ =>
    match afterNewline cs with
    | some rest => .ok ((), rest)
    | none => expected "newline" cs

/-- The rest of a line that is over: blanks, a comment and its end. -/
def lineTail : Reader Unit := fun cs =>
  lineEnd (skipComment (skipBlanks cs))

/-- The text after blanks and line ends, `fuel` of them at most. -/
def skipLinesFrom : Nat → List Char → List Char
  | 0, cs => cs
  | fuel + 1, cs =>
    match afterNewline (skipBlanks cs) with
    | some rest => skipLinesFrom fuel rest
    | none => skipBlanks cs

/-- The text after blanks and line ends. -/
def skipLines (cs : List Char) : List Char :=
  skipLinesFrom (cs.length + 1) cs

/-- The text after blanks, line ends and comments, `fuel` comments at most. -/
def skipAllFrom : Nat → List Char → List Char
  | 0, cs => cs
  | fuel + 1, cs =>
    match skipLines cs with
    | '#' :: rest => skipAllFrom fuel (skipComment ('#' :: rest))
    | rest => rest

/-- The text after blanks, line ends and comments. -/
def skipAll (cs : List Char) : List Char :=
  skipAllFrom (cs.length + 1) cs

/-! ### Strings -/

/-- The characters that stand for themselves in a string: tabs, and all but controls. -/
def isPlain (c : Char) : Bool :=
  isCommentChar c

/-- The number that hexadecimal digits write. -/
def hexNumber? (ds : List Char) : Option Nat :=
  ds.foldlM (fun n d => (Json.Reader.hexValue? d).map (16 * n + ·)) 0

/-- The character of an escape that gives its number with `count` digits. -/
def numberedChar (count : Nat) : Reader Char := fun cs =>
  if (cs.take count).length < count then expected "hexadecimal digits" cs
  else
    match hexNumber? (cs.take count) with
    | none => expected "hexadecimal digits" cs
    | some n => if n.isValidChar then .ok (Char.ofNat n, cs.drop count) else fail .outOfRange cs

/-- An escaped character, after the backslash. -/
def escaped : Reader Char := fun cs =>
  match cs with
  | 'b' :: rest => .ok ('\x08', rest)
  | 't' :: rest => .ok ('\t', rest)
  | 'n' :: rest => .ok ('\n', rest)
  | 'f' :: rest => .ok ('\x0c', rest)
  | 'r' :: rest => .ok ('\r', rest)
  | '"' :: rest => .ok ('"', rest)
  | '\\' :: rest => .ok ('\\', rest)
  | 'u' :: rest => numberedChar 4 rest
  | 'U' :: rest => numberedChar 8 rest
  | _ => expected "an escape" cs

/-- The characters of a basic string after its opening quote, `fuel` of them at most. -/
def basicBody : Nat → Reader (List Char)
  | 0, cs => expected "a closing quote" cs
  | fuel + 1, cs =>
    match cs with
    | '"' :: rest => .ok ([], rest)
    | '\\' :: rest => do
      let (c, rest) ← escaped rest
      let (s, rest) ← basicBody fuel rest
      return (c :: s, rest)
    | c :: rest =>
      if isPlain c then do
        let (s, rest) ← basicBody fuel rest
        return (c :: s, rest)
      else expected "a closing quote" cs
    | [] => expected "a closing quote" cs

/-- The characters of a literal string after its opening quote. -/
def literalBody : Reader (List Char)
  | '\x27' :: rest => .ok ([], rest)
  | c :: rest =>
    if isPlain c then do
      let (s, rest) ← literalBody rest
      return (c :: s, rest)
    else expected "a closing quote" (c :: rest)
  | [] => expected "a closing quote" []

/-- The quotes that end a string of several lines: the last three of them end it, and up to two more
in front of those are part of it. -/
def closingQuotes (quote : Char) (cs : List Char) : Option (List Char × List Char) :=
  let quotes := min 5 (cs.takeWhile (· == quote)).length
  if 3 ≤ quotes then some (List.replicate (quotes - 3) quote, cs.drop quotes) else none

/-- The text after a backslash that ends a line, if this is one: it takes all blanks and line ends
up to the next character. -/
def afterLineBackslash (cs : List Char) : Option (List Char) :=
  (afterNewline (skipBlanks cs)).map skipLines

/-- The characters of a basic string of several lines, `fuel` of them at most. -/
def multilineBasicBody : Nat → Reader (List Char)
  | 0, cs => expected "closing quotes" cs
  | fuel + 1, cs =>
    match closingQuotes '"' cs with
    | some (quotes, rest) => .ok (quotes, rest)
    | none =>
      match cs with
      | '\\' :: rest =>
        match afterLineBackslash rest with
        | some rest => multilineBasicBody fuel rest
        | none => do
          let (c, rest) ← escaped rest
          let (s, rest) ← multilineBasicBody fuel rest
          return (c :: s, rest)
      | c :: rest =>
        match afterNewline cs with
        | some rest => do
          let (s, rest) ← multilineBasicBody fuel rest
          return ('\n' :: s, rest)
        | none =>
          if isPlain c then do
            let (s, rest) ← multilineBasicBody fuel rest
            return (c :: s, rest)
          else expected "closing quotes" cs
      | [] => expected "closing quotes" cs

/-- The characters of a literal string of several lines, `fuel` of them at most. -/
def multilineLiteralBody : Nat → Reader (List Char)
  | 0, cs => expected "closing quotes" cs
  | fuel + 1, cs =>
    match closingQuotes '\x27' cs with
    | some (quotes, rest) => .ok (quotes, rest)
    | none =>
      match afterNewline cs with
      | some rest => do
        let (s, rest) ← multilineLiteralBody fuel rest
        return ('\n' :: s, rest)
      | none =>
        match cs with
        | c :: rest =>
          if isPlain c then do
            let (s, rest) ← multilineLiteralBody fuel rest
            return (c :: s, rest)
          else expected "closing quotes" cs
        | [] => expected "closing quotes" cs

/-- The text of a string of several lines: a line end right after the opening quotes is no part. -/
def afterOpening (cs : List Char) : List Char :=
  (afterNewline cs).getD cs

/-- A string in any of the four forms. -/
def string : Reader String := fun cs => do
  let (s, rest) ←
    match cs with
    | '"' :: '"' :: '"' :: rest =>
      multilineBasicBody (rest.length + 1) (afterOpening rest)
    | '\x27' :: '\x27' :: '\x27' :: rest =>
      multilineLiteralBody (rest.length + 1) (afterOpening rest)
    | '"' :: rest => basicBody (rest.length + 1) rest
    | '\x27' :: rest => literalBody rest
    | _ => expected "a string" cs
  return (String.ofList s, rest)

/-! ### Keys -/

/-- The characters of a key that needs no quotes. -/
def isKeyChar (c : Char) : Bool :=
  c.isAlphanum || c == '-' || c == '_'

/-- A key without dots. -/
def simpleKey : Reader String := fun cs =>
  match cs with
  | '"' :: rest => do
    let (s, rest) ← basicBody (rest.length + 1) rest
    return (String.ofList s, rest)
  | '\x27' :: rest => do
    let (s, rest) ← literalBody rest
    return (String.ofList s, rest)
  | _ =>
    match cs.span isKeyChar with
    | ([], _) => expected "a key" cs
    | (name, rest) => .ok (String.ofList name, rest)

/-- Keys with dots between them, `fuel` of them at most. -/
def keysFrom : Nat → Reader (List String)
  | 0, cs => expected "a key" cs
  | fuel + 1, cs => do
    let (key, cs) ← simpleKey (skipBlanks cs)
    match skipBlanks cs with
    | '.' :: rest => do
      let (keys, rest) ← keysFrom fuel rest
      return (key :: keys, rest)
    | rest => return ([key], rest)

/-- How deep keys and values may nest. -/
def maxNesting : Nat := 79

/-- A key, with its parts between dots. -/
def keys : Reader (List String) := fun cs => do
  let (keys, rest) ← keysFrom (cs.length + 1) cs
  if maxNesting < keys.length then fail .nestedTooDeep cs else return (keys, rest)

end Reader

end ModelText.Toml
