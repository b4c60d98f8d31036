import ModelText.Grammar.Error

/-!
# How deep brackets nest

A text is refused before any recursion on it if its brackets nest too deep. The scan that decides
this knows of the text only what hides a bracket: string literals with their escapes, line comments
and block comments (`Scan`). It goes over the text once, from left to right, counts the brackets
that are open and stops at the first one too many (`firstTooDeep`).

The scan also goes over texts that are no documents, where brackets need not match. A closing
bracket too many counts for nothing.
-/

namespace ModelText.Grammar

/-- The deepest nesting of containers in a body, the body itself being level 1. -/
def maxDepth : Nat := 128

/-- Where in a text a scan stands. -/
inductive Scan where
  | code
  | string
  | escape
  | lineComment
  | blockComment
deriving DecidableEq, Repr

/-- Where the scan stands after `c`, with the character that counts as the one before the next: the
two characters that open or close a comment are used up and open or close no other. -/
def Scan.step (scan : Scan) (previous c : Char) : Scan × Char :=
  match scan with
  | code =>
    if c = '"' then (string, c)
    else if c = '/' ∧ previous = '/' then (lineComment, '\x00')
    else if c = '*' ∧ previous = '/' then (blockComment, '\x00')
    else (code, c)
  | string =>
    if c = '\\' then (escape, c)
    else if c = '"' then (code, c)
    else (string, c)
  | escape => (string, c)
  | lineComment => if c = '\n' then (code, c) else (lineComment, c)
  | blockComment => if c = '/' ∧ previous = '*' then (code, '\x00') else (blockComment, c)

/-- Whether `c` opens a container. -/
def isOpening (c : Char) : Bool :=
  c == '\x7b' || c == '['

/-- Whether `c` closes a container. -/
def isClosing (c : Char) : Bool :=
  c == '\x7d' || c == ']'

/-- How many containers are open after `c`, which `scan` has met. -/
def Scan.depthAfter (scan : Scan) (c : Char) (depth : Nat) : Nat :=
  match scan with
  | code => if isOpening c then depth + 1 else if isClosing c then depth - 1 else depth
  | _ => depth

/-- The text from the first bracket on with which more than `limit` containers are open. -/
def firstTooDeepFrom (limit : Nat) : Scan → Char → Nat → List Char → Option (List Char)
  | _, _, _, [] => none
  | scan, previous, depth, c :: cs =>
    let opened := scan.depthAfter c depth
    if limit < opened then some (c :: cs)
    else
      let (scan, previous) := scan.step previous c
      firstTooDeepFrom limit scan previous opened cs

/-- The text from the first bracket on with which more than `limit` containers are open, in a text
that is gone over from its beginning. -/
def firstTooDeep (limit : Nat) (text : List Char) : Option (List Char) :=
  firstTooDeepFrom limit .code '\x00' 0 text

/-- Refuses a text whose brackets nest too deep, at the first bracket too many. -/
def checkNesting (text : List Char) : Except GrammarError Unit :=
  match firstTooDeep maxDepth text with
  | some rest => .error (.parse (.nestedTooDeep maxDepth) (Position.of text rest))
  | none => .ok ()

end ModelText.Grammar
