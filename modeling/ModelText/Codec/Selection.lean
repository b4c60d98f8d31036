import ModelText.Codec.Error
import ModelText.Element

/-!
# Selecting content

A parse may hold section indexes beside the declarations, and only the declarations are content. Two
selections are made from it. `classify` wants the one declaration of a text that stands for a single
entity. `partition` separates all declarations from all indexes.

Imports are not supported, so an index with an import is refused (`checkIndex`). `partition` looks
at every index. `classify` looks at one only where its parse has two elements; a longer parse is
refused for its counts alone.
-/

namespace ModelText

/-- Refuses an index of which a section imports something. -/
def checkIndex (index : SectionIndex) : Except CodecError Unit :=
  if index.sections.any Section.hasImports then .error .importsUnsupported else .ok ()

/-- The content element of a parse that has to hold exactly one. -/
def classify : List Element → Except CodecError Element
  | [] => .error .noContentFound
  | [.sectionIndex _] => .error .noContentFound
  | [content] => .ok content
  | [.sectionIndex index, second] => do
    checkIndex index
    match second with
    | .sectionIndex _ => .error .noContentFound
    | content => .ok content
  | [content, .sectionIndex index] => do
    checkIndex index
    return content
  | [_, _] => .error (.tooManyContentElements 2)
  | elements =>
    let indexes := elements.countP Element.isSectionIndex
    if 1 < indexes then .error (.ambiguousMetadata indexes)
    else .error (.tooManyContentElements (elements.length - indexes))

/-- A parse, divided into its indexes and its content, both in order. -/
structure Partition where
  metadata : List SectionIndex
  content : List Element

/-- Divides a parse, all of whose indexes have to be free of imports. -/
def partition (elements : List Element) : Except CodecError Partition := do
  let metadata := Element.sectionIndexes elements
  metadata.forM checkIndex
  return { metadata, content := elements.filter fun e => !e.isSectionIndex }

end ModelText
