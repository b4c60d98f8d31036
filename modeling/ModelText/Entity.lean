import ModelText.Json.Value
import ModelText.Path

/-!
# Entities

An entity is what the text format stores: a record with a path that names it, a classifier that says
what kind of record it is, and a JSON object for its content. Nothing is assumed of the two paths.
-/

namespace ModelText

/-- A named record with JSON content. -/
structure Entity where
  path : String
  classifierPath : String
  content : Json.Object

namespace Entity

/-- The package part of the path, if the path has one. -/
def package? (entity : Entity) : Option String :=
  (Path.split entity.path).1

/-- The simple name. -/
def name (entity : Entity) : String :=
  Path.name entity.path

/-- Equality up to the sign of zeros in the content. -/
def sameValue (e f : Entity) : Bool :=
  e.path == f.path && e.classifierPath == f.classifierPath && e.content.sameValue f.content

end Entity

end ModelText
