/-!
# White space

The Unicode property `White_Space`, and what it cuts out of a text: `isBlankText` for a text with
nothing else in it, `words` for the runs between. The text format itself separates its tokens by a
smaller set of characters, which its grammar names.
-/

namespace ModelText

/-- The characters with the property `White_Space`. -/
def isBlank (c : Char) : Bool :=
  (9 ≤ c.toNat && c.toNat ≤ 13) || c.toNat == 0x20 || c.toNat == 0x85 || c.toNat == 0xa0 ||
    c.toNat == 0x1680 || (0x2000 ≤ c.toNat && c.toNat ≤ 0x200a) || c.toNat == 0x2028 ||
    c.toNat == 0x2029 || c.toNat == 0x202f || c.toNat == 0x205f || c.toNat == 0x3000

/-- Whether the text is empty or holds white space only. -/
def isBlankText (text : String) : Bool :=
  text.toList.all isBlank

/-- The maximal runs without white space, in order. -/
def words : List Char → List (List Char)
  | [] => []
  | c :: cs =>
    if isBlank c then words cs
    else
      match cs with
      | [] => [[c]]
      | next :: _ => if isBlank next then [c] :: words cs else (words cs).modifyHead (c :: ·)

end ModelText
