import ModelText.Element
import ModelText.Grammar.Error

/-!
# Engines for one caller at a time

An engine with a state of its own must not be entered again while it is at work, nor after a call
that broke off in the middle and may have left the state half changed. `Exclusive` guards such an
engine. As long as no call breaks off it does exactly what the engine does. From the first call that
does break off on, it refuses every call and never enters the engine again.

A call has three outcomes (`Outcome`): it answers with a result or with an error, which are equally
harmless to the guard, or it breaks off.
-/

namespace ModelText

/-- How a call of a stateful engine ends. -/
inductive Outcome (α : Type) where
  | answered (result : Except GrammarError α)
  | brokenOff

/-- An engine whose calls change a state. -/
structure StatefulEngine (σ : Type) where
  parse : (text : String) → (keepSource : Bool) → σ → Outcome (List Element) × σ
  compose : List Element → σ → Outcome String × σ

/-- The state of an engine under guard, and whether a call has broken off. -/
structure Exclusive (σ : Type) where
  inner : σ
  poisoned : Bool := false

namespace Exclusive

variable {σ α : Type}

/-- One call of the engine, if the guard lets it in. -/
def call (step : σ → Outcome α × σ) (guarded : Exclusive σ) : Outcome α × Exclusive σ :=
  if guarded.poisoned then (.answered (.error .lock), guarded)
  else
    match step guarded.inner with
    | (.answered result, inner) => (.answered result, ⟨inner, false⟩)
    | (.brokenOff, inner) => (.brokenOff, ⟨inner, true⟩)

/-- The guarded engine, as an engine again. -/
def engine (engine : StatefulEngine σ) : StatefulEngine (Exclusive σ) where
  parse text keepSource := call (engine.parse text keepSource)
  compose elements := call (engine.compose elements)

/-- The state of the engine, unless a call has broken off. -/
def intoInner (guarded : Exclusive σ) : Except GrammarError σ :=
  if guarded.poisoned then .error .lock else .ok guarded.inner

end Exclusive

end ModelText
