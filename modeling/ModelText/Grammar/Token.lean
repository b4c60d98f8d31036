import ModelText.Json.Reader
import ModelText.Path

/-!
# Tokens of model text

Each token is recognised at the front of a text by a `Lexeme`, which splits off the characters that
it takes, as many as it can. Between tokens stand blanks and comments, in any number and order
(`skip`). A block comment that is never closed is not a comment.

The tokens of a body are those of JSON, spelled but not yet decoded: whether a string holds a
character that it must not hold, or a number is too large, is not a question of the grammar.
-/

namespace ModelText.Grammar

/-- Splits a token off the front of a text. -/
abbrev Lexeme : Type := List Char → Option (List Char × List Char)

/-! ### Between tokens -/

/-- The characters between tokens. -/
def isBlank (c : Char) : Bool :=
  c == ' ' || c == '\t' || c == '\r' || c == '\n'

/-- What follows the first end of a block comment, if there is one. -/
def afterBlock : List Char → Option (List Char)
  | [] => none
  | '*' :: '/' :: rest => some rest
  | _ :: rest => afterBlock rest

/-- Behind a block comment less of the text is left. This and the next two lemmas are why skipping comes
to an end. -/
theorem length_afterBlock {cs rest : List Char} (h : afterBlock cs = some rest) :
    rest.length < cs.length := by
  fun_induction afterBlock cs with
  | case1 => simp at h
  | case2 => cases h; simp only [List.length_cons]; omega
  | case3 c cs _ ih => exact Nat.lt_succ_of_lt (ih h)

/-- What follows a comment, if the text begins with one. A line comment ends before its line does.
-/
def afterComment : List Char → Option (List Char)
  | '/' :: '/' :: rest => some (rest.dropWhile (· != '\n'))
  | '/' :: '*' :: rest => afterBlock rest
  | _ => none

theorem length_dropWhile_le (p : Char → Bool) (cs : List Char) :
    (cs.dropWhile p).length ≤ cs.length :=
  (List.dropWhile_sublist p).length_le

theorem length_afterComment {cs rest : List Char} (h : afterComment cs = some rest) :
    rest.length < cs.length := by
  unfold afterComment at h
  split at h
  · cases h
    have := length_dropWhile_le (· != '\n') ‹List Char›
    simp only [List.length_cons]
    omega
  · have := length_afterBlock h
    simp only [List.length_cons]
    omega
  · simp at h

/-- The text after the blanks and comments that it begins with. -/
def skip (cs : List Char) : List Char :=
  match _h : afterComment (cs.dropWhile isBlank) with
  | some rest => skip rest
  | none => cs.dropWhile isBlank
termination_by cs.length
decreasing_by
  exact Nat.lt_of_lt_of_le (length_afterComment _h) (length_dropWhile_le isBlank cs)

/-! ### Names -/

/-- An identifier. -/
def identifier : Lexeme
  | [] => none
  | c :: cs =>
    if Path.isInitial c then some (c :: cs.takeWhile Path.isInner, cs.dropWhile Path.isInner)
    else none

/-- The longest continuation of a name: more of its last identifier, or a separator and another
identifier. -/
def nameTail : List Char → List Char × List Char
  | [] => ([], [])
  | ':' :: ':' :: c :: rest =>
    if Path.isInitial c then
      let (more, rest) := nameTail rest
      (':' :: ':' :: c :: more, rest)
    else ([], ':' :: ':' :: c :: rest)
  | c :: rest =>
    if Path.isInner c then
      let (more, rest) := nameTail rest
      (c :: more, rest)
    else ([], c :: rest)

/-- Identifiers joined by separators. -/
def qualifiedName : Lexeme
  | [] => none
  | c :: cs =>
    if Path.isInitial c then
      let (more, rest) := nameTail cs
      some (c :: more, rest)
    else none

/-- The path of an imported package, which `::*` has to follow. -/
def importPath : Lexeme := fun cs =>
  match qualifiedName cs with
  | some (path, ':' :: ':' :: '*' :: rest) => some (path, rest)
  | _ => none

/-- What follows a fixed text. -/
def afterExactly : List Char → List Char → Option (List Char)
  | [], cs => some cs
  | _ :: _, [] => none
  | w :: ws, c :: cs => if c = w then afterExactly ws cs else none

/-- A fixed text. -/
def exactly (text : List Char) : Lexeme := fun cs =>
  (afterExactly text cs).map (text, ·)

/-- The keyword of an import, which is not the beginning of a longer identifier. -/
def importKeyword : Lexeme := fun cs =>
  match exactly "import".toList cs with
  | some (_, c :: rest) =>
    if Path.isInner c then none else some ("import".toList, c :: rest)
  | found => found

/-- The header of a section: three marks and the name of its parser right after them. -/
def headerMark : Lexeme :=
  exactly "###".toList

/-! ### Literals -/

/-- The characters of a string literal after its opening quote, the closing quote included. -/
def stringTail : Lexeme
  | [] => none
  | '"' :: rest => some (['"'], rest)
  | '\\' :: 'u' :: a :: b :: c :: d :: rest =>
    if (Json.Reader.hexValues? a b c d).isSome then
      (stringTail rest).map fun (more, rest) => ('\\' :: 'u' :: a :: b :: c :: d :: more, rest)
    else none
  | '\\' :: c :: rest =>
    if (Json.Reader.shortEscape? c).isSome then
      (stringTail rest).map fun (more, rest) => ('\\' :: c :: more, rest)
    else none
  | '\\' :: [] => none
  | c :: rest => (stringTail rest).map fun (more, rest) => (c :: more, rest)

/-- A string literal. -/
def stringLiteral : Lexeme
  | '"' :: rest => (stringTail rest).map fun (more, rest) => ('"' :: more, rest)
  | _ => none

/-- The digits before the point: zero alone, or digits that do not begin with zero. -/
def wholePart : Lexeme
  | '0' :: rest => some (['0'], rest)
  | c :: rest => if c.isDigit then some ((c :: rest).span Char.isDigit) else none
  | [] => none

/-- A point and the digits after it, if both are there. -/
def fractionPart (cs : List Char) : List Char × List Char :=
  match cs with
  | '.' :: c :: rest =>
    if c.isDigit then
      let (ds, rest) := (c :: rest).span Char.isDigit
      ('.' :: ds, rest)
    else ([], cs)
  | _ => ([], cs)

/-- The sign of an exponent, if it has one. -/
def signPart : List Char → List Char × List Char
  | '+' :: rest => (['+'], rest)
  | '-' :: rest => (['-'], rest)
  | cs => ([], cs)

/-- An exponent with its sign and digits, if it is complete. -/
def exponentPart (cs : List Char) : List Char × List Char :=
  match cs with
  | e :: rest =>
    if Json.Reader.isExponentMark e then
      let (sign, rest) := signPart rest
      match rest.span Char.isDigit with
      | ([], _) => ([], cs)
      | (ds, rest) => (e :: sign ++ ds, rest)
    else ([], cs)
  | [] => ([], [])

/-- A minus sign, if there is one. -/
def minusPart : List Char → List Char × List Char
  | '-' :: rest => (['-'], rest)
  | cs => ([], cs)

/-- A number literal. -/
def numberLiteral : Lexeme := fun cs =>
  let (minus, cs) := minusPart cs
  match wholePart cs with
  | none => none
  | some (whole, cs) =>
    let (fraction, cs) := fractionPart cs
    let (exponent, cs) := exponentPart cs
    some (minus ++ whole ++ fraction ++ exponent, cs)

/-- One of the two truth values. -/
def boolLiteral : Lexeme := fun cs =>
  match exactly "true".toList cs with
  | some found => some found
  | none => exactly "false".toList cs

/-- The null literal. -/
def nullLiteral : Lexeme :=
  exactly "null".toList

end ModelText.Grammar
