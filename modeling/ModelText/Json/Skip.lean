import ModelText.Json.Reader

/-!
# Passing over JSON

A member that nobody asked for is passed over without making a value of it: `Reader.skip`. What is
passed over has to be well formed, but less is asked of it. Its nesting has no limit, the size of
its numbers is not looked at, and neither are the surrogates of its escapes. The places at which it
is found wrong are its own as well: a comma calls for another item or member, whatever follows it.
-/

namespace ModelText.Json.Reader

/-- Passes over an escape, after the backslash. -/
def skipEscape : Reader Unit := fun cs =>
  match cs with
  | [] => fail .endInString [] 0
  | 'u' :: rest => do
    let (_, rest) ← hexEscape rest
    return ((), rest)
  | c :: rest => if (shortEscape? c).isSome then .ok ((), rest) else fail .invalidEscape cs 1

/-- Passes over the characters of a string and its closing quote, `fuel` characters at most. -/
def skipStringBody : Nat → Reader Unit
  | 0, _ => fail .endInString [] 0
  | fuel + 1, cs =>
    match cs with
    | [] => fail .endInString [] 0
    | '"' :: rest => .ok ((), rest)
    | '\\' :: rest => do
      let (_, rest) ← skipEscape rest
      skipStringBody fuel rest
    | c :: rest => if c.toNat < 0x20 then fail .controlCharacter cs 0 else skipStringBody fuel rest

/-- Passes over a string, after its opening quote. -/
def skipString : Reader Unit := fun cs =>
  skipStringBody (cs.length + 1) cs

/-- Passes over a nonempty run of digits. -/
def skipDigits : Reader Unit := fun cs =>
  match cs with
  | [] => fail .invalidNumber [] 0
  | c :: _ => if c.isDigit then .ok ((), cs.dropWhile Char.isDigit) else fail .invalidNumber cs 1

/-- Passes over the digits before the point. -/
def skipWhole : Reader Unit := fun cs =>
  match cs with
  | '0' :: c :: rest =>
    if c.isDigit then fail .invalidNumber (c :: rest) 1 else .ok ((), c :: rest)
  | _ => skipDigits cs

/-- Passes over an exponent, if there is one. -/
def skipExponent : Reader Unit := fun cs =>
  match cs with
  | c :: rest => if isExponentMark c then skipDigits (exponentSign rest).2 else .ok ((), cs)
  | [] => .ok ((), [])

/-- Passes over a number, after its minus sign if there is one. -/
def skipNumber : Reader Unit := fun cs => do
  let (_, cs) ← skipWhole cs
  match cs with
  | '.' :: rest => do
    let (_, rest) ← skipDigits rest
    skipExponent rest
  | _ => skipExponent cs

/-- Passes over a value, given how to pass over the inside of a container. -/
def skipWith (array object : Reader Unit) : Reader Unit := fun cs =>
  match skipSpace cs with
  | [] => fail .endInValue [] 0
  | '[' :: rest => array rest
  | '\x7b' :: rest => object rest
  | '"' :: rest => skipString rest
  | 'n' :: rest => word "ull".toList rest
  | 't' :: rest => word "rue".toList rest
  | 'f' :: rest => word "alse".toList rest
  | '-' :: rest => skipNumber rest
  | c :: rest => if c.isDigit then skipNumber (c :: rest) else fail .expectedValue (c :: rest) 1

/-- Passes over an item and all items after it, `fuel` of them at most. -/
def skipItemsFrom (item : Reader Unit) : Nat → Reader Unit
  | 0, cs => fail .endInList cs 0
  | fuel + 1, cs => do
    let (_, cs) ← item cs
    match skipSpace cs with
    | [] => fail .endInList [] 0
    | ']' :: rest => .ok ((), rest)
    | ',' :: rest => skipItemsFrom item fuel rest
    | rest => fail .expectedListCommaOrEnd rest 1

/-- Passes over the items of an array, after its opening bracket. -/
def skipItems (item : Reader Unit) : Reader Unit := fun cs =>
  match skipSpace cs with
  | [] => fail .endInList [] 0
  | ']' :: rest => .ok ((), rest)
  | rest => skipItemsFrom item rest.length rest

/-- Passes over a member and all members after it, `fuel` of them at most. -/
def skipMembersFrom (value : Reader Unit) : Nat → Reader Unit
  | 0, cs => fail .endInObject cs 0
  | fuel + 1, cs =>
    match skipSpace cs with
    | [] => fail .endInObject [] 0
    | '"' :: rest => do
      let (_, cs) ← skipString rest
      let (_, cs) ← colon cs
      let (_, cs) ← value cs
      match skipSpace cs with
      | [] => fail .endInObject [] 0
      | '\x7d' :: rest => .ok ((), rest)
      | ',' :: rest => skipMembersFrom value fuel rest
      | rest => fail .expectedObjectCommaOrEnd rest 1
    | rest => fail .keyMustBeString rest 1

/-- Passes over the members of an object, after its opening brace. -/
def skipMembers (value : Reader Unit) : Reader Unit := fun cs =>
  match skipSpace cs with
  | [] => fail .endInObject [] 0
  | '\x7d' :: rest => .ok ((), rest)
  | rest => skipMembersFrom value rest.length rest

/-- Passes over a value with at most `nesting` containers inside each other. -/
def skipValue : Nat → Reader Unit
  | 0 => skipWith (fail .endInValue · 0) (fail .endInValue · 0)
  | nesting + 1 => skipWith (skipItems (skipValue nesting)) (skipMembers (skipValue nesting))

/-- Passes over a value. It has no more containers than the text has characters. -/
def skip : Reader Unit := fun cs =>
  skipValue cs.length cs

end ModelText.Json.Reader
