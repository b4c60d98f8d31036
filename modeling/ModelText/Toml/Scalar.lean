import ModelText.Toml.Text

/-!
# TOML numbers, dates and times

A value that begins with a digit or a sign is a date or a time, a floating-point number or an
integer, tried in this order. Once the text has gone far enough to be a date, a time or an integer
of another base it has to be one: then a fault is an error, and nothing else is tried. So each of
the readers here answers in three ways (`Toml.Attempt`).
-/

namespace ModelText.Toml

/-- The answer of a reader that may not be meant at all. -/
inductive Attempt (α : Type) where
  | is (a : α) (rest : List Char)
  | isNot
  | isWrong (failure : Failure)

namespace Attempt

variable {α β : Type}

/-- Goes on after a success. -/
def bind (a : Attempt α) (f : α → List Char → Attempt β) : Attempt β :=
  match a with
  | is a rest => f a rest
  | isNot => isNot
  | isWrong failure => isWrong failure

/-- What has to be there once this far. -/
def insist (what : String) (cs : List Char) : Attempt α → Attempt α
  | isNot => isWrong ⟨.expected what, cs⟩
  | a => a

/-- The first of two readings that is meant. -/
def orElse (a : Attempt α) (b : Attempt α) : Attempt α :=
  match a with
  | isNot => b
  | a => a

end Attempt

namespace Reader

open Attempt

/-! ### Dates and times -/

/-- A number of exactly `count` digits between two bounds. -/
def twoBounded (count low high : Nat) (cs : List Char) : Attempt Nat :=
  let ds := cs.take count
  if ds.length = count ∧ ds.all Char.isDigit then
    let n := Json.Reader.natOfDigits ds
    if low ≤ n ∧ n ≤ high then .is n (cs.drop count) else .isNot
  else .isNot

/-- A fixed character. -/
def exactly (c : Char) (cs : List Char) : Attempt Unit :=
  match cs with
  | d :: rest => if d = c then .is () rest else .isNot
  | [] => .isNot

/-- The number of days in a month. -/
def daysIn (year month : Nat) : Nat :=
  if month = 2 then
    if year % 4 = 0 ∧ (year % 100 ≠ 0 ∨ year % 400 = 0) then 29 else 28
  else if month = 4 ∨ month = 6 ∨ month = 9 ∨ month = 11 then 30
  else 31

/-- A date. A year and a dash commit to it. -/
def date (cs : List Char) : Attempt Unit :=
  (twoBounded 4 0 9999 cs).bind fun year cs =>
  (exactly '-' cs).bind fun _ cs =>
  ((twoBounded 2 1 12 cs).insist "a month" cs).bind fun month cs =>
  ((exactly '-' cs).insist "a dash" cs).bind fun _ cs =>
  ((twoBounded 2 1 31 cs).insist "a day" cs).bind fun day rest =>
  if daysIn year month < day then .isWrong ⟨.outOfRange, cs⟩ else .is () rest

/-- The fraction of a second, if there is one. -/
def secondFraction (cs : List Char) : List Char :=
  match cs with
  | '.' :: c :: rest => if c.isDigit then (c :: rest).dropWhile Char.isDigit else cs
  | _ => cs

/-- A time. An hour and a colon commit to it. -/
def time (cs : List Char) : Attempt Unit :=
  (twoBounded 2 0 23 cs).bind fun _ cs =>
  (exactly ':' cs).bind fun _ cs =>
  ((twoBounded 2 0 59 cs).insist "a minute" cs).bind fun _ cs =>
  ((exactly ':' cs).insist "a colon" cs).bind fun _ cs =>
  ((twoBounded 2 0 60 cs).insist "a second" cs).bind fun _ cs =>
  .is () (secondFraction cs)

/-- The offset of a time, if it has one. A sign commits to it. -/
def timeOffset (cs : List Char) : Attempt Unit :=
  match cs with
  | c :: rest =>
    if c = 'Z' ∨ c = 'z' then .is () rest
    else if c = '+' ∨ c = '-' then
      ((twoBounded 2 0 23 rest).insist "an hour" rest).bind fun _ cs =>
      ((exactly ':' cs).insist "a colon" cs).bind fun _ cs =>
      (twoBounded 2 0 59 cs).insist "a minute" cs
        |>.bind fun _ rest => .is () rest
    else .is () cs
  | [] => .is () []

/-- The mark between a date and a time. -/
def isTimeMark (c : Char) : Bool :=
  c == 'T' || c == 't' || c == ' '

/-- What follows a date: a time and an offset, if both are meant. -/
def timeOfDate (cs : List Char) : Attempt Unit :=
  match cs with
  | c :: rest =>
    if isTimeMark c then
      ((time rest).bind fun _ cs => timeOffset cs).orElse (.is () cs)
    else .is () cs
  | [] => .is () []

/-- A date, a time, or both. -/
def datetime (cs : List Char) : Attempt Value :=
  (((date cs).bind fun _ cs => timeOfDate cs).orElse (time cs)).bind fun _ rest =>
  .is (.datetime (String.ofList (cs.take (cs.length - rest.length)))) rest

/-! ### Numbers -/

/-- A sign, if there is one, and whether it is a minus. -/
def sign (cs : List Char) : Bool × List Char :=
  match cs with
  | '+' :: rest => (false, rest)
  | '-' :: rest => (true, rest)
  | _ => (false, cs)

/-- More digits of a number, each of which an underscore may stand in front of. An underscore
commits to a digit. -/
def moreDigits (isDigit : Char → Bool) : List Char → Attempt (List Char)
  | [] => .is [] []
  | '_' :: rest =>
    match rest with
    | c :: cs =>
      if isDigit c then
        (moreDigits isDigit cs).bind fun ds rest => .is (c :: ds) rest
      else .isWrong ⟨.expected "a digit", rest⟩
    | [] => .isWrong ⟨.expected "a digit", []⟩
  | c :: cs =>
    if isDigit c then
      (moreDigits isDigit cs).bind fun ds rest => .is (c :: ds) rest
    else .is [] (c :: cs)

/-- A nonempty run of digits, which may begin with zeros. -/
def someDigits (isDigit : Char → Bool) (cs : List Char) : Attempt (List Char) :=
  match cs with
  | c :: rest =>
    if isDigit c then (moreDigits isDigit rest).bind fun ds rest => .is (c :: ds) rest
    else .isNot
  | [] => .isNot

/-- The digits of a decimal integer: zero alone, or digits that do not begin with zero. -/
def decimalDigits (cs : List Char) : Attempt (List Char) :=
  match cs with
  | '0' :: rest => .is ['0'] rest
  | _ => someDigits Char.isDigit cs

/-- The fraction of a number. A point commits to digits. -/
def fraction (cs : List Char) : Attempt (List Char) :=
  (exactly '.' cs).bind fun _ cs => (someDigits Char.isDigit cs).insist "a digit" cs

/-- The exponent of a number. Its mark commits to digits. -/
def exponent (cs : List Char) : Attempt Int :=
  match cs with
  | e :: rest =>
    if Json.Reader.isExponentMark e then
      let (negative, rest) := sign rest
      ((someDigits Char.isDigit rest).insist "a digit" rest).bind fun ds rest =>
      let n : Int := Json.Reader.natOfDigits ds
      .is (if negative then -n else n) rest
    else .isNot
  | [] => .isNot

/-- The number with the given digits, unless it is above all finite ones. -/
def floatValue (negative : Bool) (whole fraction : List Char) (exponent : Int)
    (cs rest : List Char) : Attempt Value :=
  match Binary64.ofDecimal negative (Json.Reader.natOfDigits (whole ++ fraction))
      (exponent - fraction.length) with
  | some x => .is (.float (.finite x)) rest
  | none => if negative then .is (.float (.infinite true)) rest else .isWrong ⟨.outOfRange, cs⟩

/-- A fixed word. -/
def word (text : List Char) (cs : List Char) : Attempt Unit :=
  if text.isPrefixOf cs then .is () (cs.drop text.length) else .isNot

/-- Infinity, or what is no number. -/
def specialFloat (cs : List Char) : Attempt Value :=
  let (negative, rest) := sign cs
  ((word "inf".toList rest).bind fun _ rest => .is (.float (.infinite negative)) rest).orElse
    ((word "nan".toList rest).bind fun _ rest => .is (.float .nan) rest)

/-- A floating-point number: digits with a fraction, an exponent or both, or a special one. -/
def float (cs : List Char) : Attempt Value :=
  let (negative, rest) := sign cs
  let plain : Attempt Value :=
    (decimalDigits rest).bind fun whole rest =>
    ((exponent rest).bind fun e rest => floatValue negative whole [] e cs rest).orElse
      ((fraction rest).bind fun ds rest =>
        ((exponent rest).orElse (.is 0 rest)).bind fun e rest =>
        floatValue negative whole ds e cs rest)
  plain.orElse (specialFloat cs)

/-- Whether `c` is a digit of the base with the given mark. -/
def isBaseDigit (mark : Char) (c : Char) : Bool :=
  if mark = 'x' then (Json.Reader.hexValue? c).isSome
  else if mark = 'o' then '0' ≤ c && c ≤ '7'
  else c == '0' || c == '1'

/-- The base with the given mark. -/
def baseOf? (mark : Char) : Option Nat :=
  if mark = 'x' then some 16 else if mark = 'o' then some 8 else if mark = 'b' then some 2 else none

/-- The number that digits of a base write. -/
def natOfBase (base : Nat) (ds : List Char) : Nat :=
  ds.foldl (fun n d => base * n + (Json.Reader.hexValue? d).getD 0) 0

/-- An integer that has to fit 64 bits. -/
def integerValue (n : Int) (cs rest : List Char) : Attempt Value :=
  if Int64.minValue.toInt ≤ n ∧ n ≤ Int64.maxValue.toInt then .is (.integer n) rest
  else .isWrong ⟨.outOfRange, cs⟩

/-- A decimal integer. -/
def decimalInteger (cs : List Char) : Attempt Value :=
  let (negative, rest) := sign cs
  (decimalDigits rest).bind fun ds rest =>
  let n : Int := Json.Reader.natOfDigits ds
  integerValue (if negative then -n else n) cs rest

/-- An integer, decimal or with the mark of another base. -/
def integer (cs : List Char) : Attempt Value :=
  match cs with
  | '0' :: mark :: rest =>
    match baseOf? mark with
    | some base =>
      ((someDigits (isBaseDigit mark) rest).insist "a digit" rest).bind fun ds tail =>
      integerValue (natOfBase base ds) cs tail
    | none => decimalInteger cs
  | _ => decimalInteger cs

/-- A date, a time or a number. -/
def numeric (cs : List Char) : Attempt Value :=
  ((datetime cs).orElse (float cs)).orElse (integer cs)

end Reader

end ModelText.Toml
