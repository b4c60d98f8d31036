import ModelText.Codec.Converter
import ModelText.Engine

/-!
# Fixed and counted collaborators

To see how a codec treats its collaborators, an engine that always gives the same two answers
(`Engine.fixed`) takes the place of a grammar, and the calls of engine and converter are counted in
a state (`Calls`). Counting changes no answer.
-/

namespace ModelText

/-- How often each operation of the collaborators has been called. Whether a converter supports a
classifier may be asked for free. -/
structure Calls where
  parses : Nat := 0
  composes : Nat := 0
  fromEntity : Nat := 0
  toEntity : Nat := 0
deriving DecidableEq, Repr

variable {m : Type → Type} [Monad m]

namespace Engine

/-- The engine that gives one answer to every text and one to all elements. -/
def fixed (parsed : Except GrammarError (List Element)) (composed : Except GrammarError String) :
    Engine m where
  parse _ _ := pure parsed
  compose _ := pure composed

/-- An engine with its calls counted. -/
def counted (engine : Engine m) : Engine (StateT Calls m) where
  parse text keepSource := do
    modify fun calls => { calls with parses := calls.parses + 1 }
    engine.parse text keepSource
  compose elements := do
    modify fun calls => { calls with composes := calls.composes + 1 }
    engine.compose elements

end Engine

namespace Converter

/-- A converter with its calls counted. It declines where it fails, so declining calls it too. -/
def counted (converter : Converter m) : Converter (StateT Calls m) :=
  ofConversions
    (fun classifierPath => converter.supports classifierPath)
    (fun entity => do
      modify fun calls => { calls with fromEntity := calls.fromEntity + 1 }
      converter.fromEntity entity)
    (fun element => do
      modify fun calls => { calls with toEntity := calls.toEntity + 1 }
      converter.toEntity element)

end Converter

end ModelText
