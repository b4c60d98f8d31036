import ModelText.Codec

/-!
# Bytes in and out

The text of an entity as UTF-8 bytes, written to whatever takes bytes, and texts read from bytes.
A `Sink` is something that takes bytes; it may take a part of them and then refuse the rest, as a
buffer of fixed size does (`Buffer`).
-/

namespace ModelText

/-- The text that bytes are the UTF-8 form of. -/
def decodeText (bytes : ByteArray) : Except StreamError String :=
  match String.fromUTF8? bytes with
  | some text => .ok text
  | none => .error .notText

/-- Something that takes bytes. -/
abbrev Sink (m : Type → Type) : Type := ByteArray → m (Except StreamError Unit)

/-- A buffer that holds `capacity` bytes, if it has a limit at all. -/
structure Buffer where
  capacity : Option Nat
  written : ByteArray := .empty

namespace Buffer

/-- The bytes that there is still room for. -/
def fitting (buffer : Buffer) (bytes : ByteArray) : ByteArray :=
  match buffer.capacity with
  | none => bytes
  | some capacity => bytes.extract 0 (capacity - buffer.written.size)

/-- Writes bytes, or as many of them as there is room for. -/
def write (bytes : ByteArray) (buffer : Buffer) : Except StreamError Unit × Buffer :=
  let taken := buffer.fitting bytes
  (if taken.size < bytes.size then .error .bufferFull else .ok (),
    { buffer with written := buffer.written ++ taken })

/-- A buffer as a sink, where it is the state. -/
def sink {m : Type → Type} [Monad m] : Sink (StateT Buffer m) := fun bytes buffer =>
  pure (buffer.write bytes)

end Buffer

namespace Codec

variable {m : Type → Type} [Monad m]

/-- The bytes of an entity. -/
def serializeToBytes (codec : Codec m) (entity : Entity) : ExceptT CodecError m ByteArray := do
  let text ← codec.serialize entity
  return text.toUTF8

/-- Writes an entity to a sink. -/
def serializeTo (codec : Codec m) (sink : Sink m) (entity : Entity) :
    ExceptT CodecError m Unit := do
  let text ← codec.serialize entity
  match ← sink text.toUTF8 with
  | .error e => throw (.stream e)
  | .ok () => return ()

/-- The text that bytes hold. -/
def decode (bytes : ByteArray) : ExceptT CodecError m String :=
  match decodeText bytes with
  | .error e => throw (.stream e)
  | .ok text => return text

/-- The entity that bytes hold. -/
def deserializeBytes (codec : Codec m) (bytes : ByteArray) : ExceptT CodecError m Entity := do
  codec.deserialize (← decode bytes)

/-- The entities that bytes hold. -/
def deserializeManyBytes [Journal m] (codec : Codec m) (bytes : ByteArray) :
    ExceptT CodecError m (List Entity) := do
  codec.deserializeMany (← decode bytes)

end Codec

end ModelText
