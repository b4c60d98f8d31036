import ModelText.Codec

/-!
# Probing an entity

`Codec.canSerialize` finds out whether an entity can be written by writing it and reading it back.
It asks for less than equality: both directions have to come to an end, and what comes back is not
compared. It answers no more than yes or no. Why the answer is no goes to the journal, where only
the two failures that a supported entity should not have are more than a detail.
-/

namespace ModelText.Codec

/-- Why a probe gave up. -/
inductive ProbeFailure where
  | unsupportedClassifier
  | declined
  | compose (error : CodecError)
  | roundTrip (error : CodecError)

/-- What a probe that gave up reports. -/
def ProbeFailure.event (serializer : String) (entity : Entity) : ProbeFailure → Event
  | unsupportedClassifier => .classifierNotSupported entity.path entity.classifierPath
  | declined => .declined entity.path
  | compose error => .unableToSerialize entity.path serializer error.message
  | roundTrip error => .unableToDeserialize entity.path serializer error.message

variable {m : Type → Type} [Monad m]

/-- Writes an entity and reads it back. -/
def probe (codec : Codec m) (entity : Entity) : ExceptT ProbeFailure m Unit := do
  if ← codec.converter.supports entity.classifierPath then
    match ← codec.converter.fromEntityIfPossible entity with
    | none => throw .declined
    | some element =>
      let text ← (codec.composeElement element).adapt .compose
      let _ ← (codec.deserialize text).adapt .roundTrip
  else throw .unsupportedClassifier

/-- Whether an entity can be written and read back. -/
def canSerialize [Journal m] (codec : Codec m) (entity : Entity) : m Bool := do
  match ← codec.probe entity with
  | .ok () => return true
  | .error failure =>
    Journal.record (failure.event codec.name entity)
    return false

end ModelText.Codec
