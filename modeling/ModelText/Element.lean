import ModelText.Json.Value
import ModelText.Text.Position

/-!
# Elements of model text

What a grammar engine makes of a text: declarations, each with a kind, a path and a JSON object for
its body, and at most one index of the sections that the text is divided into. A declaration stands
for an entity, an index never does.

Positions are kept on request only, so `source` is optional everywhere.
-/

namespace ModelText

/-- A stretch of text: where it starts, and where the text goes on after it. -/
structure Span where
  start : Position
  stop : Position
deriving DecidableEq, Repr

/-- `kind path { body }`. -/
structure Declaration where
  kind : String
  path : String
  body : Json.Object
  source : Option Span := none

/-- Whether a section can declare imports, and which packages it does import. -/
inductive SectionKind where
  | plain
  | importAware (imports : List String)
deriving DecidableEq, Repr

/-- A section of a text: the parser that reads it and the paths of its declarations. -/
structure Section where
  parserName : String
  elements : List String
  kind : SectionKind
  source : Option Span := none
deriving DecidableEq, Repr

namespace Section

/-- The imported packages, or `none` for a section that cannot import. -/
def imports? (s : Section) : Option (List String) :=
  match s.kind with
  | .plain => none
  | .importAware imports => some imports

/-- Whether the section imports anything. -/
def hasImports (s : Section) : Bool :=
  match s.kind with
  | .plain => false
  | .importAware imports => !imports.isEmpty

end Section

/-- The sections of a text in order, under the path that parsers publish them at. -/
structure SectionIndex where
  path : String := "__internal__::SectionIndex"
  sections : List Section
deriving DecidableEq, Repr

/-- A unit of model text. -/
inductive Element where
  | declaration (d : Declaration)
  | sectionIndex (index : SectionIndex)

namespace Element

/-- The path of an element of either kind. -/
def path : Element → String
  | declaration d => d.path
  | sectionIndex index => index.path

/-- Whether the element is an index of sections. -/
def isSectionIndex : Element → Bool
  | declaration _ => false
  | sectionIndex _ => true

/-- The declarations among some elements, in order. -/
def declarations (elements : List Element) : List Declaration :=
  elements.filterMap fun
    | declaration d => some d
    | sectionIndex _ => none

/-- The section indexes among some elements, in order. -/
def sectionIndexes (elements : List Element) : List SectionIndex :=
  elements.filterMap fun
    | declaration _ => none
    | sectionIndex index => some index

/-! ### Equality of value -/

/-- Equality up to the sign of zeros in a body. -/
def sameValue : Element → Element → Bool
  | declaration d, declaration e =>
    d.kind == e.kind && d.path == e.path && d.body.sameValue e.body && d.source == e.source
  | sectionIndex a, sectionIndex b => a == b
  | _, _ => false

/-- `sameValue`, element by element. -/
def sameValues : List Element → List Element → Bool
  | [], [] => true
  | x :: xs, y :: ys => x.sameValue y && sameValues xs ys
  | _, _ => false

end Element

end ModelText
