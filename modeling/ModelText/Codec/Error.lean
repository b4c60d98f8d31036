import ModelText.Grammar.Error
import ModelText.Toml.Value

/-!
# Errors of the codec

Whatever can go wrong between entities and text, as causes. The wording of each is in
`CodecError.message`; a cause that comes from further below (`CodecError.source?`) is part of it.
-/

namespace ModelText

/-- Why a stream cannot be read or written. -/
inductive StreamError where
  | notFound
  | isDirectory
  | notText
  | bufferFull
  | other (message : String)
deriving DecidableEq, Repr

/-- The wording of a stream error. -/
def StreamError.message : StreamError → String
  | .notFound => "No such file or directory (os error 2)"
  | .isDirectory => "Is a directory (os error 21)"
  | .notText => "stream did not contain valid UTF-8"
  | .bufferFull => "failed to write whole buffer"
  | .other message => message

/-- Why an entity has no element, or an element no entity. -/
inductive ConversionCause where
  | invalidEntityPath
  | missing (key : String)
  | mismatch (key : String) (actual : Json) (expected : String)
  | sectionIndex
  | unknownKind (kind : String)
  | reservedMember (key : String)
deriving Repr

/-- The wording of a cause. -/
def ConversionCause.message : ConversionCause → String
  | .invalidEntityPath => "invalid entity path"
  | .missing key => "content is missing " ++ quoted key
  | .mismatch key actual expected =>
    key ++ " is " ++ actual.compact ++ ", expected " ++ quoted expected
  | .sectionIndex => "a section index is not an entity"
  | .unknownKind kind => "unknown element kind " ++ quoted kind
  | .reservedMember key => "body must not declare reserved member " ++ quoted key

/-- Why a configuration describes no codec. -/
inductive ConfigCause where
  | noName
  | noFileExtension
  | dottedFileExtension
  | invalidClassifierPath (path : String)
  | invalidElementKind (kind : String)
  | duplicateClassifierPath (path : String)
  | duplicateElementKind (kind : String)
deriving DecidableEq, Repr

/-- The wording of a cause. -/
def ConfigCause.message : ConfigCause → String
  | .noName => "name is required"
  | .noFileExtension => "file_extension is required"
  | .dottedFileExtension => "file_extension must not start with '.' (e.g., 'pure')"
  | .invalidClassifierPath path => "invalid classifier path: " ++ quoted path
  | .invalidElementKind kind => "invalid element kind: " ++ quoted kind
  | .duplicateClassifierPath path => "duplicate classifier path: " ++ path
  | .duplicateElementKind kind => "duplicate element kind: " ++ kind

/-- Why an operation of the codec has no result. -/
inductive CodecError where
  | noContentFound
  | tooManyContentElements (found : Nat)
  | ambiguousMetadata (found : Nat)
  | importsUnsupported
  | unsupportedClassifier (classifierPath : String)
  | conversion (path : String) (cause : ConversionCause)
  | parseFailure (error : GrammarError)
  | composeFailure (error : GrammarError)
  | stream (error : StreamError)
  | configParse (error : Toml.Error)
  | config (cause : ConfigCause)
deriving Repr

namespace CodecError

/-- The wording of an error. -/
def message : CodecError → String
  | noContentFound => "no element found"
  | tooManyContentElements found => s!"expected one element, found {found}"
  | ambiguousMetadata found => s!"expected at most one section index, found {found}"
  | importsUnsupported => "imports in model text are not currently supported"
  | unsupportedClassifier classifierPath => "unsupported classifier: " ++ classifierPath
  | conversion path cause => "cannot convert '" ++ path ++ "': " ++ cause.message
  | parseFailure error => "parse failure: " ++ error.message
  | composeFailure error => "compose failure: " ++ error.message
  | stream error => "I/O error: " ++ error.message
  | configParse error => "TOML deserialization error: " ++ error.message
  | config cause => "config error: " ++ cause.message

/-- The wording of the error that an error comes from, if it comes from one. -/
def source? : CodecError → Option String
  | parseFailure error | composeFailure error => some error.message
  | stream error => some error.message
  | configParse error => some error.message
  | _ => none

end CodecError

end ModelText
