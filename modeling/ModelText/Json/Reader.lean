import ModelText.Json.Error

/-!
# Reading JSON

A reader takes characters off the front of a text and returns what they mean together with the rest
(`Json.Reader`), or says why it cannot. `Reader.value` reads any value whose containers nest no
deeper than it is allowed to go, by recursion on that allowance; `Json.read` reads a whole text,
with `Reader.maxNesting` containers inside each other at most.

Where a name stands twice in an object its last value counts, and members come out in the order of
their names, so whatever is read is ordered: `Reader.ordered_of_value`.
-/

namespace ModelText.Json

/-- Reads something from the front of a text. -/
abbrev Reader (α : Type) : Type := List Char → Except Failure (α × List Char)

namespace Reader

/-- Fails `ahead` bytes into the text. -/
def fail {α : Type} (cause : Cause) (rest : List Char) (ahead : Nat) : Except Failure α :=
  .error ⟨cause, rest, ahead⟩

@[simp] theorem fail_ne_ok {α : Type} (cause : Cause) (rest : List Char) (ahead : Nat) (a : α) :
    fail cause rest ahead ≠ .ok a := by
  simp [fail]

/-- The characters between tokens. -/
def isSpace (c : Char) : Bool :=
  c == ' ' || c == '\n' || c == '\t' || c == '\r'

/-- The text from its first token on. -/
def skipSpace (cs : List Char) : List Char :=
  cs.dropWhile isSpace

/-! ### Numbers -/

/-- The number that a run of decimal digits writes. -/
def natOfDigits (ds : List Char) : Nat :=
  ds.foldl (fun n d => 10 * n + (d.toNat - '0'.toNat)) 0

/-- The digits before the point: no zero in front of another digit. -/
def wholeDigits : Reader (List Char)
  | [] => fail .endInValue [] 0
  | '0' :: rest =>
    match rest with
    | c :: _ => if c.isDigit then fail .invalidNumber rest 1 else .ok (['0'], rest)
    | [] => .ok (['0'], [])
  | c :: rest =>
    if c.isDigit then .ok ((c :: rest).span Char.isDigit) else fail .invalidNumber (c :: rest) 1

/-- A nonempty run of digits after the point. -/
def fractionDigits : Reader (List Char) := fun cs =>
  match cs with
  | [] => fail .endInValue [] 0
  | c :: _ => if c.isDigit then .ok (cs.span Char.isDigit) else fail .invalidNumber cs 1

/-- The sign of an exponent, and whether it is negative. -/
def exponentSign : List Char → Bool × List Char
  | '+' :: rest => (false, rest)
  | '-' :: rest => (true, rest)
  | cs => (false, cs)

/-- The digits of an exponent, whose first one has to be there. -/
def exponentDigits : Reader (List Char) := fun cs =>
  match cs with
  | [] => fail .endInValue [] 0
  | c :: _ => if c.isDigit then .ok (cs.span Char.isDigit) else fail .invalidNumber cs 1

/-- What follows the digit with which the digits read onto `acc` exceed the largest exponent that a
signed word of 32 bits holds, if they do. -/
def beyondWord : Nat → List Char → Option (List Char)
  | _, [] => none
  | acc, c :: cs =>
    if c.isDigit then
      let acc := 10 * acc + (c.toNat - '0'.toNat)
      if UInt32.size / 2 ≤ acc then some cs else beyondWord acc cs
    else none

/-- An integer literal: a 64-bit integer if it fits, and a real number otherwise. Zero with a minus
sign is real, since no integer has a signed zero. -/
def integer? (negative : Bool) (n : Nat) : Option Number :=
  if negative then
    if h : 0 < n ∧ n ≤ UInt64.size / 2 then some (.negative n h)
    else (Binary64.ofDecimal true n 0).map .real
  else if h : n < UInt64.size then some (.natural n h)
  else (Binary64.ofDecimal false n 0).map .real

/-- How many significant digits of a real literal are read as they stand. No number halfway between
two real numbers of 64 bits takes more of them to write. -/
def maxDigits : Nat := 768

/-- A real literal with the given digits before and after the point, and an exponent. Zeros at the
end of the fraction do not count. What follows the first `maxDigits` significant digits counts as
one more digit, a one, even if it is all zeros: a literal that goes on so far is taken to be above
the number that its first digits write. -/
def real? (negative : Bool) (whole fraction : List Char) (exponent : Int) : Option Number :=
  let fraction := (fraction.reverse.dropWhile (· == '0')).reverse
  let digits := (whole ++ fraction).dropWhile (· == '0')
  let exponent := exponent - fraction.length
  let value :=
    if digits.length ≤ maxDigits then Binary64.ofDecimal negative (natOfDigits digits) exponent
    else
      Binary64.ofDecimal negative (10 * natOfDigits (digits.take maxDigits) + 1)
        (exponent + (digits.length - (maxDigits + 1) : Nat))
  value.map .real

/-- Gives a number that was read, unless it is too large; then the literal ends at `stop`. -/
def inRange (n : Option Number) (rest stop : List Char) : Except Failure (Number × List Char) :=
  match n with
  | some n => .ok (n, rest)
  | none => fail .numberOutOfRange stop 0

/-- The exponent of a literal, after its `e`. -/
def exponentPart (negative : Bool) (whole fraction : List Char) : Reader Number := fun cs => do
  let (down, cs) := exponentSign cs
  let (ds, rest) ← exponentDigits cs
  let size : Int := natOfDigits ds
  inRange (real? negative whole fraction (if down then -size else size)) rest
    ((beyondWord 0 cs).getD rest)

/-- Whether the text goes on with an exponent. -/
def isExponentMark (c : Char) : Bool :=
  c == 'e' || c == 'E'

/-- A number, after its minus sign if there is one. -/
def number (negative : Bool) : Reader Number := fun cs => do
  let (whole, cs) ← wholeDigits cs
  match cs with
  | '.' :: cs =>
    let (fraction, cs) ← fractionDigits cs
    match cs with
    | c :: rest =>
      if isExponentMark c then exponentPart negative whole fraction rest
      else inRange (real? negative whole fraction 0) cs cs
    | [] => inRange (real? negative whole fraction 0) [] []
  | c :: rest =>
    if isExponentMark c then exponentPart negative whole [] rest
    else inRange (integer? negative (natOfDigits whole)) cs cs
  | [] => inRange (integer? negative (natOfDigits whole)) [] []

/-! ### Strings -/

/-- The value of a hexadecimal digit, in either case. -/
def hexValue? (c : Char) : Option Nat :=
  if c.isDigit then some (c.toNat - '0'.toNat)
  else if 'a' ≤ c ∧ c ≤ 'f' then some (c.toNat - 'a'.toNat + 10)
  else if 'A' ≤ c ∧ c ≤ 'F' then some (c.toNat - 'A'.toNat + 10)
  else none

/-- The value of four hexadecimal digits. -/
def hexValues? (a b c d : Char) : Option Nat := do
  let a ← hexValue? a
  let b ← hexValue? b
  let c ← hexValue? c
  let d ← hexValue? d
  return ((a * 16 + b) * 16 + c) * 16 + d

/-- Four bytes that have to be hexadecimal digits. -/
def hexEscape : Reader Nat := fun cs =>
  let failure : Except Failure (Nat × List Char) :=
    if Position.byteLength cs < 4 then fail .endInString [] 0 else fail .invalidEscape cs 4
  match cs with
  | a :: b :: c :: d :: rest =>
    match hexValues? a b c d with
    | some n => .ok (n, rest)
    | none => failure
  | _ => failure

/-- The second half of a surrogate pair, and the character of the pair. -/
def trailingSurrogate (leading : Nat) : Reader Char := fun cs =>
  match cs with
  | [] => fail .endInString [] 0
  | '\\' :: [] => fail .endInString [] 0
  | '\\' :: 'u' :: rest => do
    let (n, rest) ← hexEscape rest
    if 0xdc00 ≤ n ∧ n ≤ 0xdfff then
      .ok (Char.ofNat (0x10000 + (leading - 0xd800) * 0x400 + (n - 0xdc00)), rest)
    else fail .loneSurrogate rest 0
  | '\\' :: rest => fail .unfinishedSurrogate rest 1
  | _ => fail .unfinishedSurrogate cs 1

/-- The character of an escape that is one letter. -/
def shortEscape? : Char → Option Char
  | '"' => some '"'
  | '\\' => some '\\'
  | '/' => some '/'
  | 'b' => some '\x08'
  | 'f' => some '\x0c'
  | 'n' => some '\n'
  | 'r' => some '\r'
  | 't' => some '\t'
  | _ => none

/-- An escaped character, after the backslash. -/
def escaped : Reader Char := fun cs =>
  match cs with
  | [] => fail .endInString [] 0
  | 'u' :: rest => do
    let (n, rest) ← hexEscape rest
    if 0xdc00 ≤ n ∧ n ≤ 0xdfff then fail .loneSurrogate rest 0
    else if 0xd800 ≤ n ∧ n ≤ 0xdbff then trailingSurrogate n rest
    else .ok (Char.ofNat n, rest)
  | c :: rest =>
    match shortEscape? c with
    | some d => .ok (d, rest)
    | none => fail .invalidEscape cs 1

/-- The characters of a string up to its closing quote, `fuel` of them at most. -/
def stringBody : Nat → Reader (List Char)
  | 0, _ => fail .endInString [] 0
  | fuel + 1, cs =>
    match cs with
    | [] => fail .endInString [] 0
    | '"' :: rest => .ok ([], rest)
    | '\\' :: rest => do
      let (c, rest) ← escaped rest
      let (s, rest) ← stringBody fuel rest
      return (c :: s, rest)
    | c :: rest =>
      if c.toNat < 0x20 then fail .controlCharacter rest 0
      else do
        let (s, rest) ← stringBody fuel rest
        return (c :: s, rest)

/-- A string, after its opening quote. It has no more characters than the text. -/
def string : Reader String := fun cs => do
  let (s, rest) ← stringBody (cs.length + 1) cs
  return (String.ofList s, rest)

/-! ### Values -/

/-- The rest of a word whose first letter has been read. -/
def word : List Char → Reader Unit
  | [], cs => .ok ((), cs)
  | _ :: _, [] => fail .endInValue [] 0
  | w :: ws, c :: cs => if c = w then word ws cs else fail .expectedWord (c :: cs) 1

/-- A value, given how to go on after an opening bracket or brace. -/
def valueWith (array object : Reader Json) : Reader Json := fun cs =>
  match skipSpace cs with
  | [] => fail .endInValue [] 0
  | '[' :: rest => array rest
  | '\x7b' :: rest => object rest
  | '"' :: rest => do
    let (s, rest) ← string rest
    return (.string s, rest)
  | 'n' :: rest => do
    let (_, rest) ← word "ull".toList rest
    return (.null, rest)
  | 't' :: rest => do
    let (_, rest) ← word "rue".toList rest
    return (.bool true, rest)
  | 'f' :: rest => do
    let (_, rest) ← word "alse".toList rest
    return (.bool false, rest)
  | '-' :: rest => do
    let (n, rest) ← number true rest
    return (.number n, rest)
  | c :: rest =>
    if c.isDigit then do
      let (n, rest) ← number false (c :: rest)
      return (.number n, rest)
    else fail .expectedValue (c :: rest) 1

/-- An item, and all items after it up to the closing bracket: `fuel` of them at most. -/
def itemsFrom (item : Reader Json) : Nat → Reader (List Json)
  | 0, cs => fail .endInList cs 0
  | fuel + 1, cs => do
    let (j, cs) ← item cs
    match skipSpace cs with
    | [] => fail .endInList [] 0
    | ']' :: rest => .ok ([j], rest)
    | ',' :: rest =>
      match skipSpace rest with
      | [] => fail .endInValue [] 0
      | ']' :: rest => fail .trailingComma (']' :: rest) 1
      | rest => do
        let (js, rest) ← itemsFrom item fuel rest
        return (j :: js, rest)
    | rest => fail .expectedListCommaOrEnd rest 1

/-- The items of an array, after its opening bracket. -/
def items (item : Reader Json) : Reader (List Json) := fun cs =>
  match skipSpace cs with
  | [] => fail .endInList [] 0
  | ']' :: rest => .ok ([], rest)
  | rest => itemsFrom item rest.length rest

/-- The colon after the name of a member. -/
def colon : Reader Unit := fun cs =>
  match skipSpace cs with
  | [] => fail .endInObject [] 0
  | ':' :: rest => .ok ((), rest)
  | rest => fail .expectedColon rest 1

/-- The name of a member, which has to be a string. -/
def memberName : Reader String := fun cs =>
  match cs with
  | '"' :: rest => string rest
  | _ => fail .keyMustBeString cs 1

/-- A member, and all members after it up to the closing brace: `fuel` of them at most. -/
def membersFrom (value : Reader Json) : Nat → Reader (List (String × Json))
  | 0, cs => fail .endInObject cs 0
  | fuel + 1, cs => do
    let (name, cs) ← memberName cs
    let (_, cs) ← colon cs
    let (j, cs) ← value cs
    match skipSpace cs with
    | [] => fail .endInObject [] 0
    | '\x7d' :: rest => .ok ([(name, j)], rest)
    | ',' :: rest =>
      match skipSpace rest with
      | [] => fail .endInValue [] 0
      | '\x7d' :: rest => fail .trailingComma ('\x7d' :: rest) 1
      | rest => do
        let (ms, rest) ← membersFrom value fuel rest
        return ((name, j) :: ms, rest)
    | rest => fail .expectedObjectCommaOrEnd rest 1

/-- The members of an object in text order, after its opening brace. -/
def members (value : Reader Json) : Reader (List (String × Json)) := fun cs =>
  match skipSpace cs with
  | [] => fail .endInObject [] 0
  | '\x7d' :: rest => .ok ([], rest)
  | rest => membersFrom value rest.length rest

/-- An array, after its opening bracket. -/
def array (value : Reader Json) : Reader Json := fun cs => do
  let (js, rest) ← items value cs
  return (.array js, rest)

/-- An object, after its opening brace. -/
def object (value : Reader Json) : Reader Json := fun cs => do
  let (ms, rest) ← members value cs
  return (.object (insertMembers ms []), rest)

/-- Refuses a container that is nested too deep. -/
def tooDeep : Reader Json := fun rest =>
  fail .nestedTooDeep rest 0

/-- A value with at most `nesting` containers inside each other. -/
def value : Nat → Reader Json
  | 0 => valueWith tooDeep tooDeep
  | nesting + 1 => valueWith (array (value nesting)) (object (value nesting))

/-- How deep containers may nest in a text. -/
def maxNesting : Nat := 127

/-- Only white space may follow what has been read. -/
def finish (cs : List Char) : Except Failure Unit :=
  match skipSpace cs with
  | [] => .ok ()
  | rest => fail .trailingCharacters rest 1

/-- Reads a whole text. -/
def wholly {α : Type} (reader : Reader α) (text : List Char) : Except Error α :=
  match reader text with
  | .error failure => .error (failure.within text)
  | .ok (a, rest) =>
    match finish rest with
    | .error failure => .error (failure.within text)
    | .ok _ => .ok a

/-! ### What is read is ordered -/

/-- Two steps succeed exactly if the first one does and the second one does with what it gave. -/
theorem bind_eq_ok {ε α β : Type} {x : Except ε α} {f : α → Except ε β} {b : β} :
    (x >>= f) = .ok b ↔ ∃ a, x = .ok a ∧ f a = .ok b := by
  cases x <;> simp [bind, Except.bind]

/-- A value is ordered if what is read for arrays and objects is. The lemmas below go up from here to
whole texts. -/
theorem ordered_of_valueWith {array object : Reader Json}
    (ha : ∀ {cs j rest}, array cs = .ok (j, rest) → j.Ordered)
    (ho : ∀ {cs j rest}, object cs = .ok (j, rest) → j.Ordered) {cs rest : List Char} {j : Json}
    (h : valueWith array object cs = .ok (j, rest)) : j.Ordered := by
  unfold valueWith at h
  split at h
  case h_1 => simp at h
  case h_2 => exact ha h
  case h_3 => exact ho h
  all_goals try split at h
  all_goals
    try (obtain ⟨⟨a, r⟩, -, e⟩ := bind_eq_ok.1 h; cases e; simp [Ordered])
  simp at h

/-- The items that are read are ordered if each is. -/
theorem orderedItems_of_itemsFrom {item : Reader Json}
    (hi : ∀ {cs j rest}, item cs = .ok (j, rest) → j.Ordered) {fuel : Nat} {cs rest : List Char}
    {js : List Json} (h : itemsFrom item fuel cs = .ok (js, rest)) : OrderedItems js := by
  -- By induction on the fuel, one item at a time.
  induction fuel generalizing cs js with
  | zero => simp [itemsFrom, fail] at h
  | succ fuel ih =>
    obtain ⟨⟨j, cs⟩, hj, h⟩ := bind_eq_ok.1 h
    dsimp only at h
    split at h
    · simp at h
    · cases h
      exact ⟨hi hj, trivial⟩
    · split at h
      · simp at h
      · simp at h
      · obtain ⟨⟨js, r⟩, hjs, e⟩ := bind_eq_ok.1 h
        cases e
        exact ⟨hi hj, ih hjs⟩
    · simp at h

/-- So are the values of the members. -/
theorem orderedMembers_of_membersFrom {value : Reader Json}
    (hv : ∀ {cs j rest}, value cs = .ok (j, rest) → j.Ordered) {fuel : Nat} {cs rest : List Char}
    {ms : List (String × Json)} (h : membersFrom value fuel cs = .ok (ms, rest)) :
    OrderedMembers ms := by
  -- By induction on the fuel, one member at a time.
  induction fuel generalizing cs ms with
  | zero => simp [membersFrom, fail] at h
  | succ fuel ih =>
    obtain ⟨⟨name, cs₁⟩, -, h⟩ := bind_eq_ok.1 h
    obtain ⟨⟨_, cs₂⟩, -, h⟩ := bind_eq_ok.1 h
    obtain ⟨⟨j, cs₃⟩, hj, h⟩ := bind_eq_ok.1 h
    dsimp only at h
    split at h
    · simp at h
    · cases h
      exact ⟨hv hj, trivial⟩
    · split at h
      · simp at h
      · simp at h
      · obtain ⟨⟨ms, r⟩, hms, e⟩ := bind_eq_ok.1 h
        cases e
        exact ⟨hv hj, ih hms⟩
    · simp at h

theorem orderedMembers_of_members {value : Reader Json}
    (hv : ∀ {cs j rest}, value cs = .ok (j, rest) → j.Ordered) {cs rest : List Char}
    {ms : List (String × Json)} (h : members value cs = .ok (ms, rest)) : OrderedMembers ms := by
  unfold members at h
  split at h
  · simp at h
  · cases h
    trivial
  · exact orderedMembers_of_membersFrom hv h

theorem ordered_of_array {value : Reader Json}
    (hv : ∀ {cs j rest}, value cs = .ok (j, rest) → j.Ordered) {cs rest : List Char} {j : Json}
    (h : array value cs = .ok (j, rest)) : j.Ordered := by
  obtain ⟨⟨js, r⟩, hjs, e⟩ := bind_eq_ok.1 h
  cases e
  unfold items at hjs
  split at hjs
  · simp at hjs
  · cases hjs
    trivial
  · exact orderedItems_of_itemsFrom hv hjs

/-- Members in text order make an ordered object: the last of each name, in the order of names. -/
theorem ordered_object_insertMembers {ms : List (String × Json)} (h : OrderedMembers ms) :
    (Json.object (insertMembers ms [])).Ordered :=
  ordered_insertMembers h ⟨List.Pairwise.nil, trivial⟩

/-- An object is ordered by putting its members in one after another. -/
theorem ordered_of_object {value : Reader Json}
    (hv : ∀ {cs j rest}, value cs = .ok (j, rest) → j.Ordered) {cs rest : List Char} {j : Json}
    (h : object value cs = .ok (j, rest)) : j.Ordered := by
  obtain ⟨⟨ms, r⟩, hms, e⟩ := bind_eq_ok.1 h
  cases e
  exact ordered_object_insertMembers (orderedMembers_of_members hv hms)

/-- **Reading orders.** Whatever the reader returns has its objects in order. -/
theorem ordered_of_value {nesting : Nat} {cs rest : List Char} {j : Json}
    (h : value nesting cs = .ok (j, rest)) : j.Ordered := by
  induction nesting generalizing cs rest j with
  | zero =>
    exact ordered_of_valueWith (fun h => by simp [tooDeep, fail] at h)
      (fun h => by simp [tooDeep, fail] at h) h
  | succ nesting ih =>
    exact ordered_of_valueWith (fun h => ordered_of_array ih h) (fun h => ordered_of_object ih h) h

/-- The members of an object that the reader returns, after its opening brace, as an object. -/
def orderedObject (nesting : Nat) : Reader Object := fun cs =>
  match h : members (value nesting) cs with
  | .error failure => .error failure
  | .ok (ms, rest) =>
    .ok (⟨insertMembers ms [],
      ordered_object_insertMembers (orderedMembers_of_members ordered_of_value h)⟩, rest)

/-! ### Values of an expected shape -/

/-- The failure of a text that goes on with a value of another shape than expected. A scalar is read
to its end before it is refused. -/
def mismatch {α : Type} (expected : String) (cs : List Char) : Except Failure α :=
  match cs with
  | '[' :: _ => fail (.invalidType .sequence expected) cs 0
  | '\x7b' :: _ => fail (.invalidType .map expected) cs 0
  | _ => do
    let (j, rest) ← valueWith tooDeep tooDeep cs
    match j with
    | .null => fail (.invalidType .null expected) rest 0
    | .bool b => fail (.invalidType (.bool b) expected) rest 0
    | .number n => fail (.invalidType (.number n) expected) rest 0
    | .string s => fail (.invalidType (.string s) expected) rest 0
    | .array _ => fail (.invalidType .sequence expected) rest 0
    | .object _ => fail (.invalidType .map expected) rest 0

/-- A value that has to be a string. -/
def stringValue : Reader String := fun cs =>
  match skipSpace cs with
  | [] => fail .endInValue [] 0
  | '"' :: rest => string rest
  | rest => mismatch "a string" rest

/-- A value that has to be an object, with at most `nesting` containers inside each other. -/
def objectValue (nesting : Nat) : Reader Object := fun cs =>
  match skipSpace cs with
  | [] => fail .endInValue [] 0
  | '\x7b' :: rest =>
    match nesting with
    | 0 => fail .nestedTooDeep rest 0
    | nesting + 1 => orderedObject nesting rest
  | rest => mismatch "a map" rest

/-- What holds of all that a reader reads holds of what it reads from a whole text. -/
theorem of_wholly {α : Type} {reader : Reader α} {P : α → Prop}
    (hr : ∀ {cs a rest}, reader cs = .ok (a, rest) → P a) {text : List Char} {a : α}
    (h : wholly reader text = .ok a) : P a := by
  unfold wholly at h
  split at h
  · simp at h
  · split at h
    · simp at h
    · cases h
      exact hr ‹_›

end Reader

/-- The string that a text holds. -/
def readString (text : List Char) : Except Error String :=
  Reader.wholly Reader.stringValue text

/-- The object that a text holds. -/
def Object.read (text : List Char) : Except Error Object :=
  Reader.wholly (Reader.objectValue Reader.maxNesting) text

/-- The value that a text holds. -/
def read (text : List Char) : Except Error Json :=
  Reader.wholly (Reader.value Reader.maxNesting) text

/-- What is read from a text is ordered. -/
theorem ordered_of_read {text : List Char} {j : Json} (h : read text = .ok j) : j.Ordered :=
  Reader.of_wholly (P := Ordered) Reader.ordered_of_value h

end ModelText.Json
