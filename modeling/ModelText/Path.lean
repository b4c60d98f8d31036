/-!
# Paths

A path names an entity: identifiers joined by `::`, the last one the simple name and those before
it the package. Paths arrive from outside, so they are plain strings here, and what makes one
well formed is the test `Path.isValid`.

* `Path.split` cuts a path at its last separator, `Path.join` puts the two parts together again;
* `Path.isIdentifier` and `Path.isValid` decide the two shapes that the text format can write.

Everything is defined on lists of characters first (`isWord`, `segments`, `cutLast`), since that is
the form in which the grammar meets the same names.
-/

namespace ModelText.Path

/-- An ASCII letter or an underscore: what a name can begin with. -/
def isInitial (c : Char) : Bool :=
  c.isAlpha || c == '_'

/-- An ASCII letter, a digit or an underscore: what a name can go on with. -/
def isInner (c : Char) : Bool :=
  c.isAlphanum || c == '_'

/-- A nonempty run of name characters that does not begin with a digit. -/
def isWord : List Char → Bool
  | [] => false
  | c :: cs => isInitial c && cs.all isInner

@[simp] theorem isWord_nil : isWord [] = false := rfl

@[simp] theorem isWord_cons (c : Char) (cs : List Char) :
    isWord (c :: cs) = (isInitial c && cs.all isInner) := rfl

/-- The pieces between separators, cut from the left: there is always at least one. -/
def segments : List Char → List (List Char)
  | [] => [[]]
  | ':' :: ':' :: rest => [] :: segments rest
  | c :: rest => (segments rest).modifyHead (c :: ·)

/-- What stands before and after the last separator, if there is one. -/
def cutLast : List Char → Option (List Char × List Char)
  | [] => none
  | c :: rest =>
    match cutLast rest with
    | some (package, name) => some (c :: package, name)
    | none =>
      match c, rest with
      | ':', ':' :: name => some ([], name)
      | _, _ => none

/-- The package of a path, if it has one, and its simple name. -/
def split (path : String) : Option String × String :=
  match cutLast path.toList with
  | some (package, name) => (some (String.ofList package), String.ofList name)
  | none => (none, path)

/-- The path of `name` in `package`. The empty package leaves the bare name. -/
def join (package name : String) : String :=
  if package.isEmpty then name else package ++ "::" ++ name

/-- The package of a path, empty when it has none. -/
def package (path : String) : String :=
  (split path).1.getD ""

/-- The simple name of a path. -/
def name (path : String) : String :=
  (split path).2

/-- A single identifier, without any separator. -/
def isIdentifier (text : String) : Bool :=
  isWord text.toList

/-- Identifiers joined by separators. -/
def isValid (path : String) : Bool :=
  (segments path.toList).all isWord

end ModelText.Path
