import ModelText.Entity
import ModelText.Json.Skip

/-!
# Entities as JSON

The JSON form of an entity has three members: `path`, `classifierPath` and `content`. It is written
with the members in this order (`Entity.toJson`). It is read from an object with these members in
any order, unknown ones passed over and a missing `content` standing for the empty object, or from
an array of the three values in order, of which the last may be missing (`Entity.read`).

A text that is JSON but does not fit is refused where that comes out: a repeated member at its name,
a missing member or item at the closing bracket.
-/

namespace ModelText.Entity

open Json (Object Reader)
open Json.Reader

/-- The JSON form of an entity. -/
def toJson (entity : Entity) : Json :=
  .object [("path", .string entity.path), ("classifierPath", .string entity.classifierPath),
    ("content", entity.content.toJson)]

/-! ### From an array -/

/-- The text of the next item of an array, or what follows the array if there is none. -/
def nextItem (cs : List Char) : Except Json.Failure (Option (List Char) × List Char) :=
  match skipSpace cs with
  | [] => fail .endInList [] 0
  | ']' :: rest => .ok (none, rest)
  | ',' :: rest =>
    match skipSpace rest with
    | [] => fail .endInValue [] 0
    | ']' :: rest => fail .trailingComma (']' :: rest) 1
    | rest => .ok (some rest, rest)
  | rest => fail .expectedListCommaOrEnd rest 1

/-- An array may hold nothing more. -/
def closeArray (cs : List Char) : Except Json.Failure (List Char) :=
  match skipSpace cs with
  | [] => fail .endInList [] 0
  | ']' :: rest => .ok rest
  | ',' :: rest =>
    match skipSpace rest with
    | ']' :: rest => fail .trailingComma (']' :: rest) 1
    | rest => fail .trailingCharacters rest 1
  | rest => fail .trailingCharacters rest 1

/-- The failure of an array with too few items. -/
def tooShort {α : Type} (found : Nat) (rest : List Char) : Except Json.Failure α :=
  fail (.invalidLength found "struct Entity with 3 elements") rest 0

/-- An entity as an array, after its opening bracket. -/
def ofItems (nesting : Nat) : Reader Entity := fun cs =>
  match skipSpace cs with
  | [] => fail .endInList [] 0
  | ']' :: rest => tooShort 0 rest
  | rest => do
    let (path, cs) ← stringValue rest
    match ← nextItem cs with
    | (none, rest) => tooShort 1 rest
    | (some cs, _) =>
      let (classifierPath, cs) ← stringValue cs
      match ← nextItem cs with
      | (none, rest) => return (⟨path, classifierPath, Object.empty⟩, rest)
      | (some cs, _) =>
        let (content, cs) ← objectValue nesting cs
        let rest ← closeArray cs
        return (⟨path, classifierPath, content⟩, rest)

/-! ### From an object -/

/-- The members that have been read so far. -/
structure Fields where
  path : Option String
  classifierPath : Option String
  content : Option Object

/-- The failure of a name that stands there for the second time. If the object ends after it, its
end has been read. -/
def repeated {α : Type} (name : String) (cs : List Char) : Except Json.Failure α :=
  match skipSpace cs with
  | '\x7d' :: rest => fail (.duplicateField name) rest 0
  | rest => fail (.duplicateField name) rest 0

/-- The member `name`, after its name. -/
def readField (nesting : Nat) (fields : Fields) (name : String) : Reader Fields := fun cs => do
  if name = "path" then
    if fields.path.isSome then repeated name cs
    else
      let (_, cs) ← colon cs
      let (path, cs) ← stringValue cs
      return ({ fields with path := some path }, cs)
  else if name = "classifierPath" then
    if fields.classifierPath.isSome then repeated name cs
    else
      let (_, cs) ← colon cs
      let (classifierPath, cs) ← stringValue cs
      return ({ fields with classifierPath := some classifierPath }, cs)
  else if name = "content" then
    if fields.content.isSome then repeated name cs
    else
      let (_, cs) ← colon cs
      let (content, cs) ← objectValue nesting cs
      return ({ fields with content := some content }, cs)
  else
    let (_, cs) ← colon cs
    let (_, cs) ← skip cs
    return (fields, cs)

/-- The entity that all members make, after the closing brace. -/
def ofFields (fields : Fields) (rest : List Char) : Except Json.Failure (Entity × List Char) :=
  match fields.path, fields.classifierPath with
  | none, _ => fail (.missingField "path") rest 0
  | some _, none => fail (.missingField "classifierPath") rest 0
  | some path, some classifierPath =>
    .ok (⟨path, classifierPath, fields.content.getD Object.empty⟩, rest)

/-- A member and all members after it, `fuel` of them at most. -/
def ofMembersFrom (nesting : Nat) : Nat → Fields → Reader Entity
  | 0, _, cs => fail .endInObject cs 0
  | fuel + 1, fields, cs => do
    let (name, cs) ← memberName cs
    let (fields, cs) ← readField nesting fields name cs
    match skipSpace cs with
    | [] => fail .endInObject [] 0
    | '\x7d' :: rest => ofFields fields rest
    | ',' :: rest =>
      match skipSpace rest with
      | [] => fail .endInValue [] 0
      | '\x7d' :: rest => fail .trailingComma ('\x7d' :: rest) 1
      | rest => ofMembersFrom nesting fuel fields rest
    | rest => fail .expectedObjectCommaOrEnd rest 1

/-- An entity as an object, after its opening brace. -/
def ofMembers (nesting : Nat) : Reader Entity := fun cs =>
  match skipSpace cs with
  | [] => fail .endInObject [] 0
  | '\x7d' :: rest => ofFields ⟨none, none, none⟩ rest
  | rest => ofMembersFrom nesting rest.length ⟨none, none, none⟩ rest

/-- An entity. The object or array that it stands in counts as one level of nesting. -/
def reader : Reader Entity := fun cs =>
  match skipSpace cs with
  | [] => fail .endInValue [] 0
  | '[' :: rest => ofItems (maxNesting - 1) rest
  | '\x7b' :: rest => ofMembers (maxNesting - 1) rest
  | rest => mismatch "struct Entity" rest

/-- The entity that a JSON text holds. -/
def read (text : List Char) : Except Json.Error Entity :=
  wholly reader text

end ModelText.Entity
