import ModelText.Json.Shortest
import ModelText.Json.Value

/-!
# Writing JSON

One printer, `Json.render`, and two layouts for it: everything on one line without any space
(`Layout.compact`), or a line for each item and member, indented by two spaces a level
(`Layout.pretty`). The layouts differ only in what stands where a line may break and after a colon,
so whatever holds of the text between those places holds of both.

Strings escape what JSON requires and nothing else. A real number has at least one digit after the
point or an exponent, which tells it from an integer: its shortest decimal is written out from
`10 ^ -5` up to below `10 ^ 16` and in scientific form outside.
-/

namespace ModelText.Json

/-! ### Numbers -/

/-- The decimal digits of a natural number. -/
def digits (n : Nat) : List Char :=
  Nat.toDigits 10 n

/-- An exponent with its sign. -/
def signedDigits (e : Int) : List Char :=
  (if e < 0 then '-' else '+') :: digits e.natAbs

/-- The digits `ds` with a point after the first `whole` of them. -/
def pointed (ds : List Char) (whole : Nat) : List Char :=
  ds.take whole ++ '.' :: ds.drop whole

/-- A decimal number, with a point or an exponent in any case. -/
def decimalText (d : Decimal) : List Char :=
  let ds := digits d.digits
  let leading : Int := d.exponent + ds.length - 1
  if leading < -5 ∨ 15 < leading then
    (if ds.length = 1 then ds else pointed ds 1) ++ 'e' :: signedDigits leading
  else if 0 ≤ d.exponent then
    ds ++ List.replicate d.exponent.toNat '0' ++ ['.', '0']
  else if 0 ≤ leading then
    pointed ds (leading.toNat + 1)
  else
    ['0', '.'] ++ List.replicate (-leading - 1).toNat '0' ++ ds

/-- The shortest text of a real number that reads back as the same number. -/
def realText (x : Binary64) : List Char :=
  (if x.negative then ['-'] else []) ++ decimalText (Binary64.shortest x.rank)

/-- The text of a number. -/
def Number.text : Number → List Char
  | .natural n _ => digits n
  | .negative magnitude _ => '-' :: digits magnitude
  | .real x => realText x

/-! ### Strings -/

/-- A hexadecimal digit, in lower case. -/
def hexDigit (n : Nat) : Char :=
  if n < 10 then Char.ofNat ('0'.toNat + n) else Char.ofNat ('a'.toNat + (n - 10))

/-- How `c` is written inside a string. -/
def escape (c : Char) : List Char :=
  if c = '"' then ['\\', '"']
  else if c = '\\' then ['\\', '\\']
  else if c = '\x08' then ['\\', 'b']
  else if c = '\x0c' then ['\\', 'f']
  else if c = '\n' then ['\\', 'n']
  else if c = '\r' then ['\\', 'r']
  else if c = '\t' then ['\\', 't']
  else if c.toNat < 0x20 then
    ['\\', 'u', '0', '0', hexDigit (c.toNat / 16), hexDigit (c.toNat % 16)]
  else [c]

/-- A string between its quotes. -/
def stringText (s : String) : List Char :=
  '"' :: s.toList.flatMap escape ++ ['"']

/-! ### Values -/

/-- Where lines break: nowhere, or at every item and member, at an indentation level. -/
inductive Layout where
  | compact
  | pretty (level : Nat)
deriving DecidableEq, Repr

namespace Layout

/-- The layout inside a container. -/
def inner : Layout → Layout
  | compact => compact
  | pretty level => pretty (level + 1)

/-- What stands where a line may break. -/
def newline : Layout → List Char
  | compact => []
  | pretty level => '\n' :: List.replicate (2 * level) ' '

/-- What stands between the name and the value of a member. -/
def colon : Layout → List Char
  | compact => [':']
  | pretty _ => [':', ' ']

end Layout

mutual

/-- The text of a value. -/
def render (layout : Layout) : Json → List Char
  | .null => "null".toList
  | .bool true => "true".toList
  | .bool false => "false".toList
  | .number n => n.text
  | .string s => stringText s
  | .array [] => ['[', ']']
  | .array (j :: js) =>
    '[' :: layout.inner.newline ++ renderItems layout.inner (j :: js) ++ layout.newline ++ [']']
  | .object [] => ['\x7b', '\x7d']
  | .object (m :: ms) =>
    '\x7b' :: layout.inner.newline ++ renderMembers layout.inner (m :: ms) ++ layout.newline ++
      ['\x7d']

/-- The items of an array, with a comma and a line break between them. -/
def renderItems (layout : Layout) : List Json → List Char
  | [] => []
  | [j] => render layout j
  | j :: js => render layout j ++ ',' :: layout.newline ++ renderItems layout js

/-- The members of an object, with a comma and a line break between them. -/
def renderMembers (layout : Layout) : List (String × Json) → List Char
  | [] => []
  | [(name, j)] => stringText name ++ layout.colon ++ render layout j
  | (name, j) :: ms =>
    stringText name ++ layout.colon ++ render layout j ++ ',' :: layout.newline ++
      renderMembers layout ms

end

/-- The text of a value on one line. -/
def compact (j : Json) : String :=
  String.ofList (render .compact j)

/-- The text of a value with a line for each item and member. -/
def pretty (j : Json) : String :=
  String.ofList (render (.pretty 0) j)

end ModelText.Json
