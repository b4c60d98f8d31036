import ModelText.Engine.Exclusive
import ModelText.Text.Blank

/-!
# An engine of words

The smallest engine with all that a guard has to cope with: it keeps a state, it can fail and it can
break off. It counts its calls and collects the words of the texts that it parses. Each word is a
declaration without content, but at the word `fail` it answers with an error, and at the word
`panic` it breaks off; what came before in the text is kept in both cases.
-/

namespace ModelText

/-- The state of an engine of words. -/
structure WordEngine where
  parses : Nat := 0
  composes : Nat := 0
  seen : List String := []
deriving DecidableEq, Repr

namespace WordEngine

/-- The declaration that a word stands for. -/
def declaration (word : String) : Element :=
  .declaration { kind := "Class", path := word, body := Json.Object.empty }

/-- Takes the words of a text one after another. -/
def parseWords (keepSource : Bool) :
    List String → List Element → WordEngine → Outcome (List Element) × WordEngine
  | [], elements, state => (.answered (.ok elements), state)
  | word :: words, elements, state =>
    if word = "panic" then (.brokenOff, state)
    else if word = "fail" then
      (.answered (.error (.parse (.other s!"call {state.parses}")
        ⟨state.seen.length, if keepSource then 1 else 0⟩)), state)
    else
      parseWords keepSource words (elements ++ [declaration word])
        { state with seen := state.seen ++ [word] }

/-- The engine. Composing joins the paths of the elements, of which there has to be one. -/
def engine : StatefulEngine WordEngine where
  parse text keepSource state :=
    parseWords keepSource ((words text.toList).map String.ofList) []
      { state with parses := state.parses + 1 }
  compose elements state :=
    let state := { state with composes := state.composes + 1 }
    if elements.isEmpty then
      (.answered (.error (.compose (.other s!"nothing in call {state.composes}"))), state)
    else (.answered (.ok (" ".intercalate (elements.map Element.path))), state)

end WordEngine

end ModelText
