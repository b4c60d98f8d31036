import ModelText.Grammar.Compose
import ModelText.Grammar.Parse
import ModelText.Journal

/-!
# Grammar engines

A codec works with any engine that takes text to elements and elements to text. An `Engine m` gives
its answers in a setting `m`, which may hold a state of the engine, a journal, or nothing. The
engine of this library's own grammar (`Engine.modelText`) keeps no state and reports each success.
-/

namespace ModelText

/-- Takes text to elements and back. With `keepSource` elements come with their positions. -/
structure Engine (m : Type → Type) where
  parse : (text : String) → (keepSource : Bool) → m (Except GrammarError (List Element))
  compose : List Element → m (Except GrammarError String)

namespace Engine

variable {m : Type → Type} [Monad m] [Journal m]

/-- The engine of the grammar, with bodies in a style. -/
def modelText (style : Grammar.RenderStyle) : Engine m where
  parse text keepSource := do
    match Grammar.parse text keepSource with
    | .error e => return .error e
    | .ok elements =>
      Journal.record (.parsed elements.length text.utf8ByteSize)
      return .ok elements
  compose elements := do
    match Grammar.compose style elements with
    | .error e => return .error e
    | .ok text =>
      Journal.record (.composed elements.length text.utf8ByteSize)
      return .ok text

end Engine

end ModelText
