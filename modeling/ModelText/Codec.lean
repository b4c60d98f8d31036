import ModelText.Codec.Converter
import ModelText.Codec.Selection
import ModelText.Engine

/-!
# The codec

A codec takes entities to text and back. It consists of an engine and a converter and adds nothing
of its own but the way they are put together: writing converts and then composes
(`Codec.serialize`), reading parses, selects the content and converts it back (`Codec.deserialize`
for one entity, `Codec.deserializeMany` for any number). Positions are never kept, since they would
end up in what is read.

Each operation stops at the first error, so that of its collaborators only those are called whose
answer it still needs.
-/

namespace ModelText

/-- An engine and a converter under the name of a text format. -/
structure Codec (m : Type → Type) where
  name : String
  fileExtension : String
  engine : Engine m
  converter : Converter m

namespace Codec

variable {m : Type → Type} [Monad m]

/-- The elements of a text. -/
def parse (codec : Codec m) (text : String) : ExceptT CodecError m (List Element) := do
  match ← codec.engine.parse text false with
  | .error e => throw (.parseFailure e)
  | .ok elements => return elements

/-- The text of one element. -/
def composeElement (codec : Codec m) (element : Element) : ExceptT CodecError m String := do
  match ← codec.engine.compose [element] with
  | .error e => throw (.composeFailure e)
  | .ok text => return text

/-- The text of an entity. -/
def serialize (codec : Codec m) (entity : Entity) : ExceptT CodecError m String := do
  let element ← ExceptT.mk (codec.converter.fromEntity entity)
  codec.composeElement element

/-- The entity that a text holds, which has to be the only one. -/
def deserialize (codec : Codec m) (text : String) : ExceptT CodecError m Entity := do
  let elements ← codec.parse text
  let element ← ExceptT.mk (pure (classify elements))
  ExceptT.mk (codec.converter.toEntity element)

/-- The entities that a text holds, in order. -/
def deserializeMany [Journal m] (codec : Codec m) (text : String) :
    ExceptT CodecError m (List Entity) := do
  let elements ← codec.parse text
  let parts ← ExceptT.mk (pure (partition elements))
  Journal.record (.partitioned parts.metadata.length parts.content.length)
  parts.content.mapM fun element => ExceptT.mk (codec.converter.toEntity element)

end Codec

end ModelText
