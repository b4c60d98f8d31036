import ModelText.Text.GraphemeExtend
import ModelText.Text.Unprintable

/-!
# Quoted names

Messages that show a name which may hold anything put it between double quotes and escape what a
reader could not see or would misread: the quote and the backslash, line ends and tabs, characters
without a shape of their own, and marks that would melt into the character before them
(`Quoted.escape`). Everything else stands as it is.
-/

namespace ModelText.Quoted

/-- A character by its number, as `\u`, the hexadecimal number in braces. -/
def byNumber (c : Char) : List Char :=
  "\\u\x7b".toList ++ Nat.toDigits 16 c.toNat ++ ['\x7d']

/-- How `c` is written between quotes. -/
def escape (c : Char) : List Char :=
  if c = '\x00' then ['\\', '0']
  else if c = '\t' then ['\\', 't']
  else if c = '\r' then ['\\', 'r']
  else if c = '\n' then ['\\', 'n']
  else if c = '"' then ['\\', '"']
  else if c = '\\' then ['\\', '\\']
  else if isGraphemeExtend c || isUnprintable c then byNumber c
  else [c]

end ModelText.Quoted

namespace ModelText

/-- A text between quotes, with what would not show escaped. -/
def quoted (text : String) : String :=
  String.ofList ('"' :: text.toList.flatMap Quoted.escape ++ ['"'])

end ModelText
