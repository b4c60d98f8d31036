import ModelText.Element
import ModelText.Grammar.Nesting
import ModelText.Json.Depth
import ModelText.Path

/-!
# Composing model text

`Grammar.compose` writes elements as text that parses back to them. Declarations and section heads
become chunks with an empty line between them. Without a section index the declarations come in
order. With one they are dealt out first (`Grammar.claim`): each path that a section lists takes the
first declaration with that path that is still there, and what nobody takes is written in front,
outside any section.

Only what the grammar can read back is written: names are checked, and a body must not nest too
deep.
-/

namespace ModelText.Grammar

/-- How bodies are laid out: a line for each member, or everything on one line. -/
inductive RenderStyle where
  | pretty
  | standard
deriving DecidableEq, Repr

/-- The layout of JSON in a style. -/
def RenderStyle.layout : RenderStyle → Json.Layout
  | pretty => .pretty 0
  | standard => .compact

/-- Refuses elements for a reason. -/
def refuse {α : Type} (cause : ComposeCause) : Except GrammarError α :=
  .error (.compose cause)

/-! ### Declarations -/

/-- The text of a declaration. -/
def renderDeclaration (style : RenderStyle) (d : Declaration) : Except GrammarError (List Char) :=
  if !Path.isIdentifier d.kind then refuse (.invalidKind d.kind)
  else if !Path.isValid d.path then refuse (.invalidPath d.path)
  else if d.body.exceeds maxDepth then refuse (.bodyTooDeep d.path maxDepth)
  else .ok (d.kind.toList ++ ' ' :: d.path.toList ++ '\n' :: d.body.toJson.render style.layout)

/-! ### Section heads -/

/-- The line of an import. -/
def renderImport (path : String) : Except GrammarError (List Char) :=
  if Path.isValid path then .ok ("import ".toList ++ path.toList ++ "::*;".toList)
  else refuse (.invalidImport path)

/-- The header of a section and its imports, a line each. A section that cannot import has no
header either. -/
def renderHead (s : Section) : Except GrammarError (Option (List Char)) :=
  match s.kind with
  | .plain => .ok none
  | .importAware imports =>
    if Path.isIdentifier s.parserName then do
      let lines ← imports.mapM renderImport
      return some ("###".toList ++ s.parserName.toList ++ lines.flatMap ('\n' :: ·))
    else refuse (.invalidParserName s.parserName)

/-! ### Dealing out declarations -/

/-- Takes the first declaration with a path out of a pool. -/
def takeNamed (path : String) : List Declaration → Option (Declaration × List Declaration)
  | [] => none
  | d :: pool =>
    if d.path = path then some (d, pool)
    else (takeNamed path pool).map fun (found, rest) => (found, d :: rest)

/-- The declarations that the paths of a section take out of a pool, path by path, and the pool that
remains. A path that finds nothing takes nothing. -/
def claim : List String → List Declaration → List Declaration × List Declaration
  | [], pool => ([], pool)
  | path :: paths, pool =>
    match takeNamed path pool with
    | some (d, pool) =>
      let (taken, pool) := claim paths pool
      (d :: taken, pool)
    | none => claim paths pool

/-- What each section takes out of a pool, section by section, and the pool that remains. -/
def claimAll :
    List Section → List Declaration → List (Section × List Declaration) × List Declaration
  | [], pool => ([], pool)
  | s :: sections, pool =>
    let (taken, pool) := claim s.elements pool
    let (groups, pool) := claimAll sections pool
    ((s, taken) :: groups, pool)

/-! ### Texts -/

/-- The chunks of a section: its head, if it has one, and its declarations. -/
def renderGroup (style : RenderStyle) (group : Section × List Declaration) :
    Except GrammarError (List (List Char)) := do
  let head ← renderHead group.1
  let members ← group.2.mapM (renderDeclaration style)
  return head.toList ++ members

/-- The chunks of declarations under an index, if there is one. -/
def renderChunks (style : RenderStyle) (declarations : List Declaration) :
    Option SectionIndex → Except GrammarError (List (List Char))
  | none => declarations.mapM (renderDeclaration style)
  | some index => do
    let (groups, unclaimed) := claimAll index.sections declarations
    let leading ← unclaimed.mapM (renderDeclaration style)
    let sections ← groups.mapM (renderGroup style)
    return leading ++ sections.flatten

/-- Chunks with an empty line between them and a line end after the last. -/
def joinChunks : List (List Char) → List Char
  | [] => []
  | [chunk] => chunk ++ ['\n']
  | chunk :: chunks => chunk ++ '\n' :: '\n' :: joinChunks chunks

/-- The one index among some elements, if there is one. -/
def onlyIndex (elements : List Element) : Except GrammarError (Option SectionIndex) :=
  match Element.sectionIndexes elements with
  | [] => .ok none
  | [index] => .ok (some index)
  | _ => refuse .severalSectionIndexes

/-- The text of some elements. -/
def compose (style : RenderStyle) (elements : List Element) : Except GrammarError String := do
  let index ← onlyIndex elements
  let chunks ← renderChunks style (Element.declarations elements) index
  return String.ofList (joinChunks chunks)

end ModelText.Grammar
