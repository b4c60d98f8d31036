import ModelText.Format

/-!
# Sessions

A session is a workbench around a codec: a text, the entities and the elements that are being worked
with, and the format in use. Each step does one thing with them (`Session.Step`) and gives an
answer. A step that fails leaves everything as it was, which `Session.step` shows in its type: the
next session comes with the answer or not at all.
-/

namespace ModelText

/-- What is being worked with. -/
structure Session where
  format : Format := .standard
  text : String := ""
  entities : List Entity := []
  elements : List Element := []

namespace Session

/-- Something to do in a session. -/
inductive Step where
  | configure (config : CodecConfig)
  | put (entity : Entity)
  | write (text : String)
  | clear
  | probe (index : Nat)
  | serialize (index : Nat)
  | loadOne
  | load
  | parse (keepSource : Bool)
  | arrange (order : List Nat)
  | add (element : Element)
  | compose (style : Grammar.RenderStyle)

/-- What a step answers. -/
inductive Answer where
  | done
  | format (name fileExtension : String)
  | flag (b : Bool)
  | elements (elements : List Element)

/-- Why a step fails. -/
inductive Failure where
  | codec (error : CodecError)
  | grammar (error : GrammarError)
  | noSuchEntity

variable {m : Type → Type} [Monad m] [Journal m]

/-- The entity at a place in the list. -/
def entityAt (s : Session) (index : Nat) : ExceptT Failure m Entity :=
  match s.entities[index]? with
  | some entity => return entity
  | none => throw .noSuchEntity

/-- What an engine answers, with its failures as those of a step. -/
def ofEngine {α : Type} (answer : m (Except GrammarError α)) : ExceptT Failure m α :=
  (ExceptT.mk answer).adapt .grammar

/-- One step: its answer and the session after it. -/
def step (s : Session) : Step → ExceptT Failure m (Answer × Session)
  | .configure config => do
    let format ← (ExceptT.mk (pure (Format.ofConfig config))).adapt .codec
    return (.format format.name format.fileExtension, { s with format })
  | .put entity => return (.done, { s with entities := s.entities ++ [entity] })
  | .write text => return (.done, { s with text := s.text ++ text })
  | .clear => return (.done, { s with text := "" })
  | .probe index => do
    let entity ← s.entityAt index
    let b ← s.format.codec.canSerialize entity
    return (.flag b, s)
  | .serialize index => do
    let entity ← s.entityAt index
    let text ← (s.format.codec.serialize entity).adapt .codec
    return (.done, { s with text := s.text ++ text })
  | .loadOne => do
    let entity ← (s.format.codec.deserialize s.text).adapt .codec
    return (.done, { s with entities := s.entities ++ [entity] })
  | .load => do
    let entities ← (s.format.codec.deserializeMany s.text).adapt .codec
    return (.done, { s with entities })
  | .parse keepSource => do
    let elements ← ofEngine ((Engine.modelText .pretty).parse s.text keepSource)
    return (.elements elements, { s with elements })
  | .arrange order =>
    return (.done, { s with elements := order.filterMap (s.elements[·]?) })
  | .add element => return (.done, { s with elements := s.elements ++ [element] })
  | .compose style => do
    let text ← ofEngine ((Engine.modelText style).compose s.elements)
    return (.done, { s with text })

end Session

end ModelText
