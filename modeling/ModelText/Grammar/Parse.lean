import ModelText.Element
import ModelText.Grammar.Document
import ModelText.Grammar.Nesting

/-!
# Parsing model text

`Grammar.parse` takes a text to its elements in three steps, each with its own way to fail: the
brackets must not nest too deep (`checkNesting`), the text must be a document (`Document.read`), and
its literals must decode (`Document.elements`). The elements are the declarations in text order and,
if the text has a header or an import, an index of its sections at the end.

Decoding takes a body as written to an object. It goes through the text from left to right and stops
at the first literal that means nothing.
-/

namespace ModelText.Grammar

/-! ### Bodies -/

/-- An error at the place in `text` where `rest` begins. -/
def errorAt {α : Type} (text rest : List Char) (cause : ParseCause) : Except GrammarError α :=
  .error (.parse cause (Position.of text rest))

/-- What a scalar of `text` means, according to one of the JSON readers. -/
def Scalar.decode {α : Type} (reader : List Char → Except Json.Error α) (text : List Char)
    (s : Scalar) : Except GrammarError α :=
  match reader s.raw with
  | .ok a => .ok a
  | .error e => errorAt text s.start (.invalidLiteral e)

mutual

/-- What a literal of `text` means. It stands on nesting level `level`, and no container may stand
beyond `limit`. -/
def Literal.decode (text : List Char) (limit : Nat) (level : Nat) :
    Literal → Except GrammarError Json
  | .scalar s => s.decode Json.read text
  | .array start items =>
    if limit < level then errorAt text start (.nestedTooDeep limit)
    else do
      let js ← decodeItems text limit (level + 1) items
      return .array js
  | .object start members =>
    if limit < level then errorAt text start (.nestedTooDeep limit)
    else do
      let ms ← decodeMembers text limit (level + 1) members
      return .object (Json.insertMembers ms [])

/-- What the items of an array mean. -/
def decodeItems (text : List Char) (limit : Nat) (level : Nat) :
    List Literal → Except GrammarError (List Json)
  | [] => .ok []
  | l :: ls => do
    let j ← l.decode text limit level
    let js ← decodeItems text limit level ls
    return j :: js

/-- What the members of an object mean, in text order. -/
def decodeMembers (text : List Char) (limit : Nat) (level : Nat) :
    List (Scalar × Literal) → Except GrammarError (List (String × Json))
  | [] => .ok []
  | (name, l) :: ls => do
    let name ← name.decode Json.readString text
    let j ← l.decode text limit level
    let ms ← decodeMembers text limit level ls
    return (name, j) :: ms

end

open Json.Reader (bind_eq_ok)

mutual

/-- What is decoded is ordered, so that a body can be an object. -/
theorem ordered_of_decode {text : List Char} {limit level : Nat} :
    ∀ (l : Literal) {j : Json}, l.decode text limit level = .ok j → j.Ordered
  | .scalar s, j, h => by
    unfold Literal.decode Scalar.decode at h
    split at h
    · cases h
      exact Json.ordered_of_read ‹_›
    · simp [errorAt] at h
  | .array start items, j, h => by
    unfold Literal.decode at h
    split at h
    · simp [errorAt] at h
    · obtain ⟨js, hjs, e⟩ := bind_eq_ok.1 h
      cases e
      exact ordered_of_decodeItems items hjs
  | .object start members, j, h => by
    unfold Literal.decode at h
    split at h
    · simp [errorAt] at h
    · obtain ⟨ms, hms, e⟩ := bind_eq_ok.1 h
      cases e
      exact Json.Reader.ordered_object_insertMembers (ordered_of_decodeMembers members hms)

theorem ordered_of_decodeItems {text : List Char} {limit level : Nat} :
    ∀ (ls : List Literal) {js : List Json},
      decodeItems text limit level ls = .ok js → Json.OrderedItems js
  | [], js, h => by
    cases h
    trivial
  | l :: ls, js, h => by
    obtain ⟨j, hj, h⟩ := bind_eq_ok.1 h
    obtain ⟨js, hjs, e⟩ := bind_eq_ok.1 h
    cases e
    exact ⟨ordered_of_decode l hj, ordered_of_decodeItems ls hjs⟩

theorem ordered_of_decodeMembers {text : List Char} {limit level : Nat} :
    ∀ (ls : List (Scalar × Literal)) {ms : List (String × Json)},
      decodeMembers text limit level ls = .ok ms → Json.OrderedMembers ms
  | [], ms, h => by
    cases h
    trivial
  | (name, l) :: ls, ms, h => by
    obtain ⟨name, -, h⟩ := bind_eq_ok.1 h
    obtain ⟨j, hj, h⟩ := bind_eq_ok.1 h
    obtain ⟨ms, hms, e⟩ := bind_eq_ok.1 h
    cases e
    exact ⟨ordered_of_decode l hj, ordered_of_decodeMembers ls hms⟩

end

/-- What the body of a declaration means: level 1 is the body itself. -/
def decodeBody (text : List Char) (limit : Nat) (body : List (Scalar × Literal)) :
    Except GrammarError Json.Object :=
  match h : decodeMembers text limit 2 body with
  | .error e => .error e
  | .ok ms =>
    .ok ⟨Json.insertMembers ms [],
      Json.Reader.ordered_object_insertMembers (ordered_of_decodeMembers body h)⟩

/-! ### Declarations and sections -/

/-- The stretch of `text` between two places, given by what the text is from there on. -/
def span (text start stop : List Char) : Span :=
  ⟨Position.of text start, Position.of text stop⟩

/-- The declaration that an entry of `text` means. -/
def Entry.declaration (text : List Char) (keepSource : Bool) (entry : Entry) :
    Except GrammarError Declaration := do
  let body ← decodeBody text maxDepth entry.body
  return {
    kind := String.ofList entry.kind
    path := String.ofList entry.path
    body
    source := if keepSource then some (span text entry.start entry.stop) else none }

/-- The parser name of a section that has no header. -/
def defaultParserName : String := "Pure"

/-- The section that a block of `text` means. Without a header it can import only if it does. -/
def Block.toSection (text : List Char) (keepSource : Bool) (block : Block) : Section where
  parserName := (block.header.map String.ofList).getD defaultParserName
  elements := block.entries.map fun entry => String.ofList entry.path
  kind :=
    if block.header.isNone && block.imports.isEmpty then .plain
    else .importAware (block.imports.map String.ofList)
  source := if keepSource then some (span text block.start block.stop) else none

/-- The declarations that a block of `text` means. -/
def Block.declarations (text : List Char) (keepSource : Bool) (block : Block) :
    Except GrammarError (List Declaration) :=
  block.entries.mapM (Entry.declaration text keepSource)

/-- Whether a leading block counts as a section: one that holds nothing does not. -/
def Block.isSection (block : Block) : Bool :=
  !block.entries.isEmpty || !block.imports.isEmpty

/-- The blocks of a document that count as sections. -/
def Document.sectionBlocks (document : Document) : List Block :=
  if document.leading.isSection then document.leading :: document.sections else document.sections

/-- Whether a document has an index of its sections: without any header or import it has none. -/
def Document.hasIndex (document : Document) : Bool :=
  !document.sections.isEmpty || !document.leading.imports.isEmpty

/-- The elements that a document in `text` means. -/
def Document.elements (text : List Char) (keepSource : Bool) (document : Document) :
    Except GrammarError (List Element) := do
  let declarations ← (document.leading :: document.sections).mapM
    (Block.declarations text keepSource)
  let index : SectionIndex :=
    { sections := document.sectionBlocks.map (Block.toSection text keepSource) }
  return declarations.flatten.map .declaration ++
    (if document.hasIndex then [.sectionIndex index] else [])

/-- The elements of a text, with their positions in it if these are to be kept. -/
def parse (text : String) (keepSource : Bool) : Except GrammarError (List Element) := do
  checkNesting text.toList
  let document ← Document.read text.toList
  document.elements text.toList keepSource

end ModelText.Grammar
