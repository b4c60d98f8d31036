import ModelText.Codec.Probe
import ModelText.Config

/-!
# Text formats

A format is what a configuration comes to: a name, a file extension, a layout and a taxonomy
(`Format.ofConfig`). It determines a codec over the engine of this library's grammar in every
setting (`Format.codec`). `Format.standard` is the format that an empty configuration comes to.
-/

namespace ModelText

/-- A text format for entities. -/
structure Format where
  name : String
  fileExtension : String
  style : Grammar.RenderStyle
  taxonomy : Taxonomy

namespace Format

/-- The format with the built-in taxonomy and a line for each member. -/
def standard : Format where
  name := "pure"
  fileExtension := "pure"
  style := .pretty
  taxonomy := .standard

/-- The format that a configuration describes. -/
def ofConfig (config : CodecConfig) : Except CodecError Format := do
  config.validate
  let taxonomy ← Taxonomy.standard.extend config.classifiers
  return {
    name := config.name
    fileExtension := config.fileExtension
    style := config.renderStyle
    taxonomy }

/-- The codec of a format. -/
def codec {m : Type → Type} [Monad m] [Journal m] (format : Format) : Codec m where
  name := format.name
  fileExtension := format.fileExtension
  engine := .modelText format.style
  converter := .ofTaxonomy format.taxonomy

end Format

end ModelText
