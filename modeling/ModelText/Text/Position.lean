/-!
# Positions in text

A reader that works on the characters still to come knows where it stands by what is left: in a
text, the suffix `rest` begins right after the first `text.length - rest.length` characters. So no
reader here counts lines. It keeps the suffix, and a position is worked out where one is shown.

Two ways of counting are in use. Model text counts characters and calls the first place of a line
column 1 (`Position.of`). JSON messages count the bytes of the UTF-8 form that have been read on
the line, so that a reader which has read nothing stands at column 0 (`Position.ofBytes`).
-/

namespace ModelText

/-- A line, counted from 1, and a column in it. -/
structure Position where
  line : Nat
  column : Nat
deriving DecidableEq, Repr

namespace Position

/-! ### Counting characters -/

/-- The position after `c`, for something that stood at `p`. -/
def advance (p : Position) (c : Char) : Position :=
  if c = '\n' then ⟨p.line + 1, 1⟩ else ⟨p.line, p.column + 1⟩

/-- The position right after the characters `read`, at the start of a text. -/
def after (read : List Char) : Position :=
  read.foldl advance ⟨1, 1⟩

@[simp] theorem after_nil : after [] = ⟨1, 1⟩ := rfl

theorem after_append_singleton (read : List Char) (c : Char) :
    after (read ++ [c]) = (after read).advance c := by
  simp [after]

/-- The position in `text` where its suffix `rest` begins. -/
def of (text rest : List Char) : Position :=
  after (text.take (text.length - rest.length))

theorem of_append (read rest : List Char) : of (read ++ rest) rest = after read := by
  simp [of]

/-! ### Counting bytes -/

/-- The number of bytes of the UTF-8 form. -/
def byteLength : List Char → Nat
  | [] => 0
  | c :: cs => c.utf8Size + byteLength cs

/-- The position that `bytes` bytes reach in a text, from position `p` on. A character that is cut
short counts with the bytes that are in. -/
def forward (p : Position) : Nat → List Char → Position
  | _, [] => p
  | bytes, c :: cs =>
    if bytes < c.utf8Size then ⟨p.line, p.column + bytes⟩
    else if c = '\n' then forward ⟨p.line + 1, 0⟩ (bytes - c.utf8Size) cs
    else forward ⟨p.line, p.column + c.utf8Size⟩ (bytes - c.utf8Size) cs

/-- The position `ahead` bytes into the suffix `rest` of `text`, or at the end of `text` if there
are fewer. -/
def ofBytes (text rest : List Char) (ahead : Nat) : Position :=
  forward ⟨1, 0⟩ (byteLength text - byteLength rest + ahead) text

end Position

end ModelText
