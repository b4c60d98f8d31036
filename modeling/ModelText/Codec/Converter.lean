import ModelText.Taxonomy

/-!
# Converters

A codec works with any converter between entities and elements. A `Converter m` gives its answers in
a setting `m`, like an engine. Any converter can also decline instead of failing; unless it has a
way of its own to do that, it converts and forgets the error (`Converter.ofConversions`).
-/

namespace ModelText

/-- Takes entities to elements and back. -/
structure Converter (m : Type → Type) where
  supports : (classifierPath : String) → m Bool
  fromEntity : Entity → m (Except CodecError Element)
  fromEntityIfPossible : Entity → m (Option Element)
  toEntity : Element → m (Except CodecError Entity)

namespace Converter

variable {m : Type → Type} [Monad m]

/-- A converter that declines exactly where it fails. -/
def ofConversions (supports : String → m Bool) (fromEntity : Entity → m (Except CodecError Element))
    (toEntity : Element → m (Except CodecError Entity)) : Converter m where
  supports := supports
  fromEntity := fromEntity
  fromEntityIfPossible entity := do
    return (← fromEntity entity).toOption
  toEntity := toEntity

/-- The converter of a taxonomy. -/
def ofTaxonomy (t : Taxonomy) : Converter m :=
  ofConversions (fun classifierPath => pure (t.supports classifierPath))
    (fun entity => pure (t.fromEntity entity)) (fun element => pure (t.toEntity element))

end Converter

end ModelText
