import ModelText.CommandLine.Arguments
import ModelText.CommandLine.Report
import ModelText.Codec.Stream
import ModelText.Entity.Json
import ModelText.Format

/-!
# Running commands

What the commands do, in any setting that has files to read and an output to write to (`Console`).
Entities are JSON files, model text goes through a codec. `serialize` writes the text of one file
after another, so what has been written when a file fails are the whole texts of the files before
it. `check` looks at all files before it writes a line.

A command ends with a status or gives up with a `Report`.
-/

namespace ModelText.CommandLine

/-- What a command sees of the world: files by their paths, and an output. -/
structure Console (m : Type → Type) where
  bytesOf : (path : String) → m (Except StreamError ByteArray)
  output : Sink m

/-- How a command ends. -/
inductive Status where
  | success
  | failure
deriving DecidableEq, Repr

variable {m : Type → Type} [Monad m]

/-- Reads the text of a file. -/
def readText (console : Console m) (path : String) : ExceptT StreamError m String := do
  let bytes ← ExceptT.mk (console.bytesOf path)
  ExceptT.mk (pure (decodeText bytes))

/-- Writes text to the output. -/
def write (console : Console m) (text : String) : ExceptT Report m Unit := do
  match ← console.output text.toUTF8 with
  | .error e => throw ⟨e.message, []⟩
  | .ok () => return ()

/-- Reads the configuration in a file. -/
def readConfig [Journal m] (console : Console m) (path : String) :
    ExceptT CodecError m CodecConfig := do
  let text ← (readText console path).adapt .stream
  let config ← ExceptT.mk (pure (CodecConfig.read text))
  Journal.record (.configLoaded path config.classifiers.length)
  return config

/-- The format that the configuration in a file describes, or the standard one. -/
def loadFormat [Journal m] (console : Console m) : Option String → ExceptT Report m Format
  | none => return .standard
  | some path => do
    let config ← (readConfig console path).adapt
      (.ofCodec s!"Failed to load codec config from {path}")
    (ExceptT.mk (pure (Format.ofConfig config))).adapt (.ofCodec "Invalid codec config")

/-- Reads the entity in a JSON file. -/
def readEntity (console : Console m) (path : String) : ExceptT Report m Entity := do
  let text ← (readText console path).adapt (.ofStream s!"Failed to read {path}")
  match Entity.read text.toList with
  | .error e => throw ⟨s!"{path} is not an entity JSON document", [e.message]⟩
  | .ok entity => return entity

/-- Writes the texts of the entities in some files, one after another. -/
def serializeFiles [Journal m] (console : Console m) (codec : Codec m) :
    List String → ExceptT Report m Unit
  | [] => return ()
  | path :: paths => do
    let entity ← readEntity console path
    (codec.serializeTo console.output entity).adapt
      (.ofCodec s!"Failed to serialize {entity.path}")
    Journal.record (.entityWritten entity.path path)
    serializeFiles console codec paths

/-- The JSON of the entities in a file of model text: one entity, or an array of any number. -/
def deserializeFile [Journal m] (console : Console m) (codec : Codec m) (path : String)
    (many : Bool) : ExceptT Report m String := do
  let text ← (readText console path).adapt (.ofStream s!"Failed to read {path}")
  let failed := Report.ofCodec s!"Failed to deserialize {path}"
  if many then
    let entities ← (codec.deserializeMany text).adapt failed
    Journal.record (.entitiesRead path entities.length)
    return (Json.array (entities.map Entity.toJson)).pretty
  else
    let entity ← (codec.deserialize text).adapt failed
    return entity.toJson.pretty

/-- The path of the entity in each file, and whether it can be written and read back. -/
def checkFiles [Journal m] (console : Console m) (codec : Codec m) :
    List String → ExceptT Report m (List (String × Bool))
  | [] => return []
  | path :: paths => do
    let entity ← readEntity console path
    let supported ← codec.canSerialize entity
    let more ← checkFiles console codec paths
    return (entity.path, supported) :: more

/-- The line about one entity. -/
def checkLine (entityPath : String) (supported : Bool) : String :=
  (if supported then "ok" else "unsupported") ++ "\t" ++ entityPath ++ "\n"

/-- Runs a command with a codec. -/
def runCommand [Journal m] (console : Console m) (codec : Codec m) :
    Command → ExceptT Report m Status
  | .serialize entities => do
    serializeFiles console codec entities
    return .success
  | .deserialize file many => do
    let json ← deserializeFile console codec file many
    write console (json ++ "\n")
    return .success
  | .check entities => do
    let results ← checkFiles console codec entities
    for (entityPath, supported) in results do
      write console (checkLine entityPath supported)
    return if results.all (·.2) then .success else .failure

/-- Runs an invocation. -/
def run [Journal m] (console : Console m) (invocation : Invocation) : ExceptT Report m Status := do
  let format ← loadFormat console invocation.config
  Journal.record (.codecReady format.name)
  runCommand console format.codec invocation.command

end ModelText.CommandLine
