import ModelText.Proofs.Transcript

/-!
# How a codec talks to its collaborators

For each operation of a codec a relation says which transcripts it can leave, and with which result:
`Writes` for the text of an entity, `Reads` and `ReadsMany` for one entity and for many. None of them
mentions how the codec is put together. A conversation ends where an answer is an error, or where the codec
itself refuses the elements of a parse, and there is no other way to end early.

The rules of `Codec.Runs` follow the codec through its operations, with a case for every answer that a
collaborator can give. So each operation has a run whose transcript is in its relation, in every state of
the collaborators.
-/

namespace ModelText

variable {σ : Type}

/-! ### Conversations -/

/-- Writing an entity converts it, and composes the one element that it is given if it is given one. -/
inductive Writes (entity : Entity) : List Exchange → Except CodecError String → Prop
  | unconverted (e : CodecError) : Writes entity [.fromEntity entity (.error e)] (.error e)
  | composed (element : Element) (answer : Except GrammarError String) :
      Writes entity [.fromEntity entity (.ok element), .compose [element] answer]
        (answer.mapError .composeFailure)

/-- Reading an entity parses without positions, and converts the element that is selected if one is. -/
inductive Reads (text : String) : List Exchange → Except CodecError Entity → Prop
  | unparsed (e : GrammarError) :
      Reads text [.parse text false (.error e)] (.error (.parseFailure e))
  | unselected {elements : List Element} {e : CodecError} :
      classify elements = .error e → Reads text [.parse text false (.ok elements)] (.error e)
  | converted {elements : List Element} {element : Element} (answer : Except CodecError Entity) :
      classify elements = .ok element →
      Reads text [.parse text false (.ok elements), .toEntity element answer] answer

/-- Conversions of elements, each of which has an entity. -/
def conversions (elements : List Element) (entities : List Entity) : List Exchange :=
  List.zipWith (fun element entity => .toEntity element (.ok entity)) elements entities

/-- Elements are converted in order, all of them or up to the first that has no entity. -/
inductive Converts : List Element → List Exchange → Except CodecError (List Entity) → Prop
  | all {elements : List Element} {entities : List Entity} :
      elements.length = entities.length → Converts elements (conversions elements entities) (.ok entities)
  | upTo {before : List Element} {entities : List Entity} (element : Element) (after : List Element)
      (e : CodecError) : before.length = entities.length →
      Converts (before ++ element :: after)
        (conversions before entities ++ [.toEntity element (.error e)]) (.error e)

/-- Reading many entities parses without positions, and converts the content if the parse can be
divided. -/
inductive ReadsMany (text : String) : List Exchange → Except CodecError (List Entity) → Prop
  | unparsed (e : GrammarError) :
      ReadsMany text [.parse text false (.error e)] (.error (.parseFailure e))
  | undivided {elements : List Element} {e : CodecError} :
      partition elements = .error e → ReadsMany text [.parse text false (.ok elements)] (.error e)
  | divided {elements : List Element} {parts : Partition} {exchanges : List Exchange}
      {result : Except CodecError (List Entity)} :
      partition elements = .ok parts → Converts parts.content exchanges result →
      ReadsMany text (.parse text false (.ok elements) ::
        .reported (.partitioned parts.metadata.length parts.content.length) :: exchanges) result

/-- One more element in front, which has an entity. -/
theorem Converts.cons {elements : List Element} {exchanges : List Exchange}
    {result : Except CodecError (List Entity)} (h : Converts elements exchanges result)
    (element : Element) (entity : Entity) :
    Converts (element :: elements) (.toEntity element (.ok entity) :: exchanges)
      (result.map (entity :: ·)) := by
  cases h with
  | @all _ entities hlength =>
    have hlonger : (element :: elements).length = (entity :: entities).length :=
      congrArg (· + 1) hlength
    exact .all hlonger
  | @upTo before entities element' after e hlength =>
    have hlonger : (element :: before).length = (entity :: entities).length :=
      congrArg (· + 1) hlength
    exact .upTo element' after e hlonger

/-! ### Operations of a codec -/

namespace Codec

variable (codec : Codec (StateM σ)) {s t u : σ} {entity : Entity} {element : Element} {text : String}

section Steps

variable {codec}

/-- Asking the converter for an element is one exchange. -/
theorem runs_fromEntity {answer : Except CodecError Element}
    (h : (codec.converter.fromEntity entity).run s = (answer, t)) :
    codec.Runs (codec.transcribed.converter.fromEntity entity) (codec.converter.fromEntity entity) s
      answer [.fromEntity entity answer] t :=
  .call h h

/-- So is asking it for an entity. -/
theorem runs_toEntity {answer : Except CodecError Entity}
    (h : (codec.converter.toEntity element).run s = (answer, t)) :
    codec.Runs (codec.transcribed.converter.toEntity element) (codec.converter.toEntity element) s
      answer [.toEntity element answer] t :=
  .call h h

/-- Parsing is one exchange with the engine. If that refuses the text, the codec passes the error on as
its own. -/
theorem runs_parse {answer : Except GrammarError (List Element)}
    (h : (codec.engine.parse text false).run s = (answer, t)) :
    codec.Runs (codec.transcribed.parse text).run (codec.parse text).run s
      (answer.mapError .parseFailure) [.parse text false answer] t := by
  have hcall : codec.Runs (codec.transcribed.engine.parse text false) (codec.engine.parse text false) s
      answer [.parse text false answer] t := .call h h
  -- Either way the call is recorded, and the error is only given another name.
  cases answer with
  | error e => exact Runs.bind_ok (.lift hcall) (.pure _ t)
  | ok elements => exact Runs.bind_ok (.lift hcall) (.pure _ t)

/-- So is composing a single element. -/
theorem runs_composeElement {answer : Except GrammarError String}
    (h : (codec.engine.compose [element]).run s = (answer, t)) :
    codec.Runs (codec.transcribed.composeElement element).run (codec.composeElement element).run s
      (answer.mapError .composeFailure) [.compose [element] answer] t := by
  have hcall : codec.Runs (codec.transcribed.engine.compose [element]) (codec.engine.compose [element]) s
      answer [.compose [element] answer] t := .call h h
  cases answer with
  | error e => exact Runs.bind_ok (.lift hcall) (.pure _ t)
  | ok text => exact Runs.bind_ok (.lift hcall) (.pure _ t)

/-! #### Writing -/

/-- An entity that is not converted is not composed: the exchange with the converter is the only one. -/
theorem runs_serialize_of_error {e : CodecError}
    (h : (codec.converter.fromEntity entity).run s = (.error e, t)) :
    codec.Runs (codec.transcribed.serialize entity).run (codec.serialize entity).run s (.error e)
      [.fromEntity entity (.error e)] t :=
  Runs.bind_error (runs_fromEntity h)

/-- Otherwise its element is composed, by the engine as the converter has left the state. -/
theorem runs_serialize_of_ok {answer : Except GrammarError String}
    (h : (codec.converter.fromEntity entity).run s = (.ok element, t))
    (hcompose : (codec.engine.compose [element]).run t = (answer, u)) :
    codec.Runs (codec.transcribed.serialize entity).run (codec.serialize entity).run s
      (answer.mapError .composeFailure) [.fromEntity entity (.ok element), .compose [element] answer] u :=
  Runs.bind_ok (runs_fromEntity h) (runs_composeElement hcompose)

end Steps

/-- **Writing is a conversation.** Whatever the collaborators answer, the exchanges take one of the
courses that are listed for it. -/
theorem exists_runs_serialize (entity : Entity) (s : σ) : ∃ result exchanges t,
    codec.Runs (codec.transcribed.serialize entity).run (codec.serialize entity).run s result exchanges t ∧
      Writes entity exchanges result := by
  -- The state goes from the converter to the engine, so each answer is named with the state it leaves.
  rcases h : (codec.converter.fromEntity entity).run s with ⟨converted, t⟩
  cases converted with
  | error e => exact ⟨_, _, _, runs_serialize_of_error h, .unconverted e⟩
  | ok element =>
    rcases hcompose : (codec.engine.compose [element]).run t with ⟨answer, u⟩
    exact ⟨_, _, _, runs_serialize_of_ok h hcompose, .composed element answer⟩

/-! #### Reading -/

/-- **So is reading one entity.** Between the engine and the converter the elements are classified, and
that asks nobody. -/
theorem exists_runs_deserialize (text : String) (s : σ) : ∃ result exchanges t,
    codec.Runs (codec.transcribed.deserialize text).run (codec.deserialize text).run s result exchanges t ∧
      Reads text exchanges result := by
  rcases hparse : (codec.engine.parse text false).run s with ⟨parsed, t⟩
  have hparsed := runs_parse hparse
  cases parsed with
  | error e => exact ⟨_, _, _, Runs.bind_error hparsed, .unparsed e⟩
  | ok elements =>
    -- What classifying gives does not depend on the state.
    cases hclassify : classify elements with
    | error e =>
      exact ⟨_, _, t, Runs.bind_ok hparsed (Runs.bind_error (.given hclassify t)),
        .unselected hclassify⟩
    | ok element =>
      rcases hconvert : (codec.converter.toEntity element).run t with ⟨answer, u⟩
      have hconverted := Runs.bind_ok (.given hclassify t) (runs_toEntity hconvert)
      exact ⟨_, _, u, Runs.bind_ok hparsed hconverted, .converted answer hclassify⟩

/-- Converting a list of elements asks for them one by one, up to the first that fails. -/
theorem exists_runs_conversions (elements : List Element) (s : σ) : ∃ result exchanges t,
    codec.Runs
        (elements.mapM fun element => ExceptT.mk (codec.transcribed.converter.toEntity element)).run
        (elements.mapM fun element => ExceptT.mk (codec.converter.toEntity element)).run
        s result exchanges t ∧
      Converts elements exchanges result := by
  -- By induction on the elements. An error stops the rest of them.
  induction elements generalizing s with
  | nil => exact ⟨.ok [], [], s, .pure _ s, .all rfl⟩
  | cons element elements ih =>
    rw [List.mapM_cons, List.mapM_cons]
    rcases h : (codec.converter.toEntity element).run s with ⟨answer, t⟩
    cases answer with
    | error e =>
      have hstop : Converts ([] ++ element :: elements)
          (conversions [] [] ++ [.toEntity element (.error e)]) (.error e) :=
        .upTo element elements e rfl
      exact ⟨_, _, t, Runs.bind_error (runs_toEntity h), hstop⟩
    | ok entity =>
      obtain ⟨result, exchanges, u, hrest, hconverts⟩ := ih t
      exact ⟨_, _, u, Runs.bind_ok (runs_toEntity h) (hrest.bind_pure (entity :: ·)),
        hconverts.cons element entity⟩

/-- **And so is reading many.** The elements are divided before any is converted, so with imports in the
text the converter is not asked at all. -/
theorem exists_runs_deserializeMany (text : String) (s : σ) : ∃ result exchanges t,
    codec.Runs (codec.transcribed.deserializeMany text).run (codec.deserializeMany text).run s
        result exchanges t ∧
      ReadsMany text exchanges result := by
  rcases hparse : (codec.engine.parse text false).run s with ⟨parsed, t⟩
  have hparsed := runs_parse hparse
  cases parsed with
  | error e => exact ⟨_, _, _, Runs.bind_error hparsed, .unparsed e⟩
  | ok elements =>
    cases hpartition : partition elements with
    | error e =>
      exact ⟨_, _, t, Runs.bind_ok hparsed (Runs.bind_error (.given hpartition t)),
        .undivided hpartition⟩
    | ok parts =>
      obtain ⟨result, exchanges, u, hconversions, hconverts⟩ :=
        codec.exists_runs_conversions parts.content t
      refine ⟨_, _, u, Runs.bind_ok hparsed (Runs.bind_ok (.given hpartition t) ?_),
        .divided hpartition hconverts⟩
      exact Runs.bind_ok (.lift (.record _ t)) hconversions

end Codec

end ModelText
