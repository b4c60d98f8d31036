import ModelText.Grammar.Compose
import ModelText.Taxonomy
import ModelText.Text.Blank
import ModelText.Toml.Document

/-!
# Configuration

A configuration names a text format and its file extension, chooses how bodies are laid out and adds
classifiers to the built-in taxonomy. It is read from TOML (`CodecConfig.read`), where every entry
has a default and unknown entries are no concern of it.

Reading checks the shape only. Whether the values make sense is the question of
`CodecConfig.validate` and of the taxonomy they go into.
-/

namespace ModelText

/-- The settings of a codec. -/
structure CodecConfig where
  name : String := "pure"
  fileExtension : String := "pure"
  renderStyle : Grammar.RenderStyle := .pretty
  classifiers : List ClassifierMapping := []
deriving DecidableEq, Repr

namespace CodecConfig

/-- Refuses a configuration without a name, or with an extension that is none. -/
def validate (config : CodecConfig) : Except CodecError Unit :=
  if isBlankText config.name then .error (.config .noName)
  else if isBlankText config.fileExtension then .error (.config .noFileExtension)
  else if config.fileExtension.toList.head? = some '.' then .error (.config .dottedFileExtension)
  else .ok ()

/-! ### From TOML -/

/-- A value that has to be a string. -/
def stringOf : Toml.Value → Except Toml.Cause String
  | .string s => .ok s
  | value => .error (.wrongKind "a string" value.kind)

/-- The style of that name. -/
def styleNamed (name : String) : Except Toml.Cause Grammar.RenderStyle :=
  if name = "pretty" then .ok .pretty
  else if name = "standard" then .ok .standard
  else .error (.unknownVariant name)

/-- Whether a value has nothing in it. -/
def isEmptyContainer : Toml.Value → Bool
  | .array [] | .tables [] | .table _ [] => true
  | _ => false

/-- A value that has to be a style: its name, or a table whose only key is the name, with nothing
under it. -/
def styleOf : Toml.Value → Except Toml.Cause Grammar.RenderStyle
  | .string name => styleNamed name
  | .table _ [(name, value)] => do
    let style ← styleNamed name
    if isEmptyContainer value then return style
    else throw (.wrongKind "an empty table" value.kind)
  | value => .error (.wrongKind "a style" value.kind)

/-- An entry that has to be there and has to be a string. -/
def requiredString (name : String) (entries : List (String × Toml.Value)) :
    Except Toml.Cause String :=
  match Toml.lookup name entries with
  | none => .error (.missingField name)
  | some value => stringOf value

/-- A value that has to be a mapping: a table with its three entries, or a list of these three. -/
def mappingOf : Toml.Value → Except Toml.Cause ClassifierMapping
  | .table _ entries => do
    let classifierPath ← requiredString "classifier_path" entries
    let elementKind ← requiredString "element_kind" entries
    let typeTag ← requiredString "type_tag" entries
    return { classifierPath, elementKind, typeTag }
  | .array (classifierPath :: elementKind :: typeTag :: _) => do
    let classifierPath ← stringOf classifierPath
    let elementKind ← stringOf elementKind
    let typeTag ← stringOf typeTag
    return { classifierPath, elementKind, typeTag }
  | value => .error (.wrongKind "a mapping" value.kind)

/-- A value that has to be a list of mappings. -/
def mappingsOf : Toml.Value → Except Toml.Cause (List ClassifierMapping)
  | .array items | .tables items => items.mapM mappingOf
  | value => .error (.wrongKind "a sequence" value.kind)

/-- An entry of a document, or its default. -/
def entryOr {α : Type} (default : α) (name : String) (decode : Toml.Value → Except Toml.Cause α)
    (entries : List (String × Toml.Value)) : Except Toml.Cause α :=
  match Toml.lookup name entries with
  | none => .ok default
  | some value => decode value

/-- The configuration that the entries of a document describe. -/
def ofEntries (entries : List (String × Toml.Value)) : Except Toml.Cause CodecConfig := do
  let default : CodecConfig := {}
  let name ← entryOr default.name "name" stringOf entries
  let fileExtension ← entryOr default.fileExtension "file_extension" stringOf entries
  let renderStyle ← entryOr default.renderStyle "render_style" styleOf entries
  let classifiers ← entryOr default.classifiers "classifiers" mappingsOf entries
  return { name, fileExtension, renderStyle, classifiers }

/-- The configuration that a TOML text describes. -/
def read (text : String) : Except CodecError CodecConfig :=
  match Toml.read text.toList with
  | .error e => .error (.configParse e)
  | .ok entries =>
    match ofEntries entries with
    | .error cause => .error (.configParse ⟨cause, none⟩)
    | .ok config => .ok config

end CodecConfig

end ModelText
