import ModelText.Format
import ModelText.Proofs.Conversion
import ModelText.Proofs.Reformatting

/-!
# What is written reads back

The text that a format gives to an entity (`Format.written`) holds the one declaration that stands for
the entity. Parsing returns just that declaration, selecting content lets it pass, and converting takes
it back to the entity. This is so in every setting: what an operation of the codec does there is told
by its result and by the events that it reports (`run_serialize`, `run_deserialize_of_written`,
`run_deserializeMany_of_written`).
-/

namespace ModelText

open Grammar

/-! ### One declaration -/

/-- A declaration that is composed alone is what the text parses to. -/
theorem parse_of_compose_declaration {style : RenderStyle} {d : Declaration} {text : String}
    (h : compose style [.declaration d] = .ok text) :
    parse text false = .ok [.declaration d.withoutSource] := by
  obtain ⟨index, leading, groups, hindex, hclaim, hparse⟩ := parse_of_compose h
  obtain rfl : none = index := Except.ok.inj hindex
  -- There is no section, so the declaration is a leading one.
  cases hclaim
  exact hparse

theorem mapError_eq_ok {ε ε' α : Type} {f : ε → ε'} {x : Except ε α} {a : α} :
    x.mapError f = .ok a ↔ x = .ok a := by
  cases x <;> simp [Except.mapError]

namespace Format

/-- The text of an entity, and what keeps it from having one. -/
def written (format : Format) (entity : Entity) : Except CodecError String :=
  match format.taxonomy.fromEntity entity with
  | .error e => .error e
  | .ok element => (compose format.style [element]).mapError .composeFailure

/-- An entity has a text if it has an element and the element can be composed. -/
theorem written_eq_ok {format : Format} {entity : Entity} {text : String} :
    format.written entity = .ok text ↔
      ∃ element, format.taxonomy.fromEntity entity = .ok element ∧
        compose format.style [element] = .ok text := by
  unfold written
  cases format.taxonomy.fromEntity entity with
  | error e => simp
  | ok element => simp [mapError_eq_ok]

/-- The text of an entity holds the declaration that stands for the entity, and nothing else. -/
theorem parse_of_written {format : Format} {entity : Entity} {text : String}
    (h : format.written entity = .ok text) :
    ∃ d, format.taxonomy.fromEntity entity = .ok (.declaration d) ∧
      parse text false = .ok [.declaration d] := by
  obtain ⟨element, hfrom, hcompose⟩ := written_eq_ok.mp h
  obtain ⟨m, -, -, rfl⟩ := Taxonomy.fromEntity_eq_ok.mp hfrom
  exact ⟨_, hfrom, parse_of_compose_declaration hcompose⟩

/-- The entity that a parse stands for, whose content has to be one declaration. -/
def entityOf (format : Format) (elements : List Element) : Except CodecError Entity := do
  let element ← classify elements
  format.taxonomy.toEntity element

end Format

/-! ### Operations in a setting -/

theorem mk_pure_ok {m : Type → Type} [Monad m] {ε α : Type} (a : α) :
    (ExceptT.mk (pure (.ok a)) : ExceptT ε m α) = pure a := rfl

section Setting

variable {m : Type → Type} [Monad m] [LawfulMonad m] [Journal m]

omit [Journal m] in
theorem adapt_pure {ε ε' α : Type} (f : ε → ε') (a : α) :
    (pure a : ExceptT ε m α).adapt f = pure a := by
  refine ExceptT.ext ?_
  rw [ExceptT.run_adapt, ExceptT.run_pure, map_pure]
  rfl

omit [Journal m] in
/-- What cannot fail comes before what can. -/
theorem run_liftM_bind {ε α β : Type} (x : m α) (f : α → ExceptT ε m β) :
    ((liftM x : ExceptT ε m α) >>= f).run = x >>= fun a => (f a).run :=
  ExceptT.run_bind_lift x f

/-- Reporting an event on the way to a result or an error. -/
theorem run_record_bind {ε α : Type} (event : Event) (f : Unit → ExceptT ε m α) :
    (Journal.record event >>= f).run = Journal.record event >>= fun u => (f u).run :=
  run_liftM_bind (Journal.record event) f

/-- Composing reports that it has been done, or is an error. -/
theorem run_composeElement (format : Format) (element : Element) :
    ((format.codec (m := m)).composeElement element).run =
      (match compose format.style [element] with
      | .error e => pure (.error (.composeFailure e))
      | .ok text => do
        Journal.record (.composed 1 text.utf8ByteSize)
        pure (.ok text)) := by
  unfold Codec.composeElement Format.codec Engine.modelText
  cases h : compose format.style [element] with
  | error e => simp [h]
  | ok text =>
    simp [h]
    rfl

/-- Parsing does the same. -/
theorem run_parse (format : Format) (text : String) :
    ((format.codec (m := m)).parse text).run =
      (match parse text false with
      | .error e => pure (.error (.parseFailure e))
      | .ok elements => do
        Journal.record (.parsed elements.length text.utf8ByteSize)
        pure (.ok elements)) := by
  unfold Codec.parse Format.codec Engine.modelText
  cases h : parse text false with
  | error e => simp [h]
  | ok elements =>
    simp [h]
    rfl

/-- Writing gives the text of the entity and reports that it has been composed. -/
theorem run_serialize (format : Format) (entity : Entity) :
    ((format.codec (m := m)).serialize entity).run =
      (match format.written entity with
      | .error e => pure (.error e)
      | .ok text => do
        Journal.record (.composed 1 text.utf8ByteSize)
        pure (.ok text)) := by
  unfold Codec.serialize Format.written
  rw [ExceptT.run_bind]
  have hfrom : (ExceptT.mk ((format.codec (m := m)).converter.fromEntity entity)).run =
      (pure (format.taxonomy.fromEntity entity) : m _) := rfl
  -- Converting asks nothing of the setting, so the engine is what is left.
  rw [hfrom, pure_bind]
  cases format.taxonomy.fromEntity entity with
  | error e => rfl
  | ok element =>
    dsimp only
    rw [run_composeElement]
    cases compose format.style [element] <;> rfl

omit [Journal m] in
/-- A traversal whose steps say nothing about the setting says nothing about it either. -/
theorem mapM_mk_pure {ε α β : Type} (f : α → Except ε β) (as : List α) :
    as.mapM (fun a => (ExceptT.mk (pure (f a)) : ExceptT ε m β)) = ExceptT.mk (pure (as.mapM f)) := by
  -- By induction on the list. An error of the first step ends both sides.
  induction as with
  | nil => rfl
  | cons a as ih =>
    rw [List.mapM_cons, ih, List.mapM_cons]
    refine ExceptT.ext ?_
    rw [ExceptT.run_bind, ExceptT.run_mk, pure_bind]
    cases f a with
    | error e => rfl
    | ok b =>
      dsimp only
      rw [ExceptT.run_bind, ExceptT.run_mk, pure_bind]
      cases as.mapM f <;> rfl

/-- Reading one entity reports the parse, and gives what the parse stands for. -/
theorem run_deserialize (format : Format) (text : String) :
    ((format.codec (m := m)).deserialize text).run =
      (match parse text false with
      | .error e => pure (.error (.parseFailure e))
      | .ok elements => do
        Journal.record (.parsed elements.length text.utf8ByteSize)
        pure (format.entityOf elements)) := by
  unfold Codec.deserialize
  rw [ExceptT.run_bind, run_parse]
  cases parse text false with
  | error e => rw [pure_bind]
  | ok elements =>
    simp only [bind_assoc, pure_bind]
    refine bind_congr fun _ => ?_
    rw [ExceptT.run_bind, ExceptT.run_mk, pure_bind]
    unfold Format.entityOf
    cases classify elements <;> rfl

/-- Reading any number of entities reports the parse and how it has been divided, and gives what its
content stands for. -/
theorem run_deserializeMany (format : Format) (text : String) :
    ((format.codec (m := m)).deserializeMany text).run =
      (match parse text false with
      | .error e => pure (.error (.parseFailure e))
      | .ok elements => do
        Journal.record (.parsed elements.length text.utf8ByteSize)
        match partition elements with
        | .error e => pure (.error e)
        | .ok parts => do
          Journal.record (.partitioned parts.metadata.length parts.content.length)
          pure (parts.content.mapM format.taxonomy.toEntity)) := by
  unfold Codec.deserializeMany
  rw [ExceptT.run_bind, run_parse]
  cases parse text false with
  | error e => rw [pure_bind]
  | ok elements =>
    simp only [bind_assoc, pure_bind]
    refine bind_congr fun _ => ?_
    rw [ExceptT.run_bind, ExceptT.run_mk, pure_bind]
    cases partition elements with
    | error e => rfl
    | ok parts =>
      dsimp only
      -- How the parse has been divided is reported before anything is converted.
      rw [run_record_bind]
      refine bind_congr fun _ => ?_
      exact congrArg ExceptT.run (mapM_mk_pure format.taxonomy.toEntity parts.content)

/-- Reading a written text gives the entity and reports that it has been parsed. -/
theorem run_deserialize_of_written {format : Format} {entity : Entity} {text : String}
    (h : format.written entity = .ok text) :
    ((format.codec (m := m)).deserialize text).run = (do
      Journal.record (.parsed 1 text.utf8ByteSize)
      pure (.ok entity)) := by
  obtain ⟨d, hfrom, hparse⟩ := Format.parse_of_written h
  -- The one declaration passes the selection of content whatever it declares.
  have hentity : format.entityOf [.declaration d] = .ok entity := Taxonomy.toEntity_fromEntity hfrom
  rw [run_deserialize, hparse]
  dsimp only
  rw [hentity, List.length_singleton]

/-- Reading a written text as any number of entities gives the one. -/
theorem run_deserializeMany_of_written {format : Format} {entity : Entity} {text : String}
    (h : format.written entity = .ok text) :
    ((format.codec (m := m)).deserializeMany text).run = (do
      Journal.record (.parsed 1 text.utf8ByteSize)
      Journal.record (.partitioned 0 1)
      pure (.ok [entity])) := by
  obtain ⟨d, hfrom, hparse⟩ := Format.parse_of_written h
  -- The one declaration is all of the content, and there is no index.
  have hpartition : partition [.declaration d] = .ok ⟨[], [.declaration d]⟩ := rfl
  rw [run_deserializeMany, hparse]
  dsimp only
  rw [hpartition, List.length_singleton]
  dsimp only
  rw [List.mapM_cons, Taxonomy.toEntity_fromEntity hfrom]
  rfl

end Setting

/-! ### Results -/

/-- Where there are only results, writing gives the text of the entity. -/
theorem serialize_eq_ok {format : Format} {entity : Entity} {text : String} :
    ((format.codec (m := Id)).serialize entity).run.run = .ok text ↔
      format.written entity = .ok text := by
  rw [run_serialize]
  cases format.written entity with
  | error e => exact Iff.rfl
  | ok text' => exact Iff.rfl

/-- **Round trip.** If the codec of a format writes an entity, whatever the taxonomy and the style of
the format and whatever the content of the entity, the text parses to the one declaration that stands
for the entity, and the codec reads it back as the entity and as the list of that one entity. -/
theorem serialize_round_trip (format : Format) (entity : Entity) {text : String}
    (h : ((format.codec (m := Id)).serialize entity).run.run = .ok text) :
    (∃ element, format.taxonomy.fromEntity entity = .ok element ∧
        parse text false = .ok [element]) ∧
      ((format.codec (m := Id)).deserialize text).run.run = .ok entity ∧
      ((format.codec (m := Id)).deserializeMany text).run.run = .ok [entity] := by
  have hwritten := serialize_eq_ok.mp h
  obtain ⟨d, hfrom, hparse⟩ := Format.parse_of_written hwritten
  refine ⟨⟨.declaration d, hfrom, hparse⟩, ?_, ?_⟩
  · rw [run_deserialize_of_written hwritten]
    rfl
  · rw [run_deserializeMany_of_written hwritten]
    rfl

/-- A kind that is spelled like the keyword of imports, and a string with a comment and a quote. -/
theorem serialize_round_trip_import :
    let mapping : ClassifierMapping := ⟨"x::Import", "import", "import"⟩
    let content := (((Json.Object.empty.insertString "_type" "import").insertString "name" "B"
      ).insertString "package" "a").insertString "text" "//\"*/"
    ∃ format text, Format.ofConfig { classifiers := [mapping] } = .ok format ∧
      ((format.codec (m := Id)).serialize ⟨"a::B", "x::Import", content⟩).run.run = .ok text ∧
      (∃ element, format.taxonomy.fromEntity ⟨"a::B", "x::Import", content⟩ = .ok element ∧
        parse text false = .ok [element]) ∧
      ((format.codec (m := Id)).deserialize text).run.run =
        .ok ⟨"a::B", "x::Import", content⟩ ∧
      ((format.codec (m := Id)).deserializeMany text).run.run =
        .ok [⟨"a::B", "x::Import", content⟩] := by
  intro mapping content
  have hconsistent : ClassifierMapping.Consistent (Taxonomy.standardMappings ++ [mapping]) := by
    decide
  have hconfig : Format.ofConfig { classifiers := [mapping] } =
      .ok ⟨"pure", "pure", .pretty, ⟨Taxonomy.standardMappings ++ [mapping], hconsistent⟩⟩ := by
    cbv
  have h : ((Format.codec (m := Id) ⟨"pure", "pure", .pretty,
      ⟨Taxonomy.standardMappings ++ [mapping], hconsistent⟩⟩).serialize
        ⟨"a::B", "x::Import", content⟩).run.run =
      .ok "import a::B\n\x7b\n  \"text\": \"//\\\"*/\"\n\x7d\n" := by
    cbv
  exact ⟨_, _, hconfig, h, serialize_round_trip _ _ h⟩

end ModelText
