import ModelText.Proofs.Commands
import ModelText.Proofs.EntityJson
import ModelText.Proofs.Refusals
import ModelText.Proofs.Selection

/-!
# Printed entities as files

`deserialize` prints the JSON of the entity in a text, and `serialize` and `check` read entities from
files of JSON. What the one prints the others read, as long as the body of the declaration nests at most
126 levels (`printed_entity_reads_back_iff`). A text may go two levels further: its bodies nest up to 128
levels, while the reader goes 127 levels deep and spends one of them on the object around the content.
-/

namespace ModelText

namespace CommandLine

/-! ### Files -/

/-- The text in a file. -/
def textIn (files : String → Except StreamError ByteArray) (path : String) :
    Except StreamError String := do
  let bytes ← files path
  decodeText bytes

/-- A file with the bytes of a text has that text. -/
theorem textIn_of_toUTF8 {files : String → Except StreamError ByteArray} {path text : String}
    (h : files path = .ok text.toUTF8) : textIn files path = .ok text :=
  Json.Reader.bind_eq_ok.mpr ⟨_, h, decodeText_toUTF8 text⟩

/-- The entity in a file, and what is reported if there is none. -/
def entityIn (files : String → Except StreamError ByteArray) (path : String) :
    Except Report Entity :=
  match textIn files path with
  | .error e => .error (.ofStream s!"Failed to read {path}" e)
  | .ok text =>
    match Entity.read text.toList with
    | .error e => .error ⟨s!"{path} is not an entity JSON document", [e.message]⟩
    | .ok entity => .ok entity

theorem mk_pure_adapt {m : Type → Type} [Monad m] [LawfulMonad m] {ε ε' α : Type} (f : ε → ε')
    (x : Except ε α) :
    (ExceptT.mk (pure x) : ExceptT ε m α).adapt f = ExceptT.mk (pure (x.mapError f)) := by
  refine ExceptT.ext ?_
  rw [ExceptT.run_adapt, ExceptT.run_mk, map_pure, ExceptT.run_mk]

section Setting

variable {m : Type → Type} [Monad m] [LawfulMonad m]
  {files : String → Except StreamError ByteArray}

/-- With files that do not change, reading one asks nothing of the setting. -/
theorem readText_ofFiles (path : String) :
    readText (Console.ofFiles (m := m) files) path = ExceptT.mk (pure (textIn files path)) := by
  unfold readText Console.ofFiles textIn
  dsimp only
  refine ExceptT.ext ?_
  rw [ExceptT.run_bind, ExceptT.run_mk, pure_bind]
  cases files path <;> rfl

/-- So is reading the entity in one. -/
theorem readEntity_ofFiles (path : String) :
    readEntity (Console.ofFiles (m := m) files) path = ExceptT.mk (pure (entityIn files path)) := by
  unfold readEntity entityIn
  rw [readText_ofFiles, mk_pure_adapt]
  refine ExceptT.ext ?_
  rw [ExceptT.run_bind, ExceptT.run_mk, pure_bind]
  cases textIn files path with
  | error e => rfl
  | ok text =>
    dsimp only [Except.mapError]
    cases Entity.read text.toList <;> rfl

variable [Journal m]

/-- A file of model text is read as one entity, and the JSON of the entity is the result. -/
theorem run_deserializeFile (format : Format) (path : String) :
    (deserializeFile (Console.ofFiles (m := m) files) format.codec path false).run =
      (match textIn files path with
      | .error e => pure (.error (.ofStream s!"Failed to read {path}" e))
      | .ok text => do
        let result ← (format.codec.deserialize text).run
        pure ((result.mapError (.ofCodec s!"Failed to deserialize {path}")).map
          fun entity => entity.toJson.pretty)) := by
  unfold deserializeFile
  rw [readText_ofFiles, mk_pure_adapt, ExceptT.run_bind, ExceptT.run_mk, pure_bind]
  -- A file that cannot be read is reported before the codec is asked.
  cases textIn files path with
  | error e => rfl
  | ok text =>
    dsimp only [Except.mapError]
    rw [if_neg Bool.false_ne_true, ExceptT.run_bind, ExceptT.run_adapt, bind_map_left]
    refine bind_congr fun result => ?_
    cases result <;> rfl

end Setting

section Results

variable {files : String → Except StreamError ByteArray} {buffer : Buffer}

theorem readEntity_eq (path : String) :
    ((readEntity (Console.ofFiles (m := Id) files) path).run.run buffer).run =
      (entityIn files path, buffer) := by
  rw [readEntity_ofFiles]
  rfl

/-- A state beside the results does not change them. -/
theorem run_deserialize_buffer (format : Format) (text : String) :
    ((format.codec (m := StateT Buffer Id)).deserialize text).run.run buffer =
      pure (((format.codec (m := Id)).deserialize text).run.run, buffer) := by
  rw [run_deserialize, run_deserialize]
  cases Grammar.parse text false <;> rfl

/-- JSON is printed exactly if the file has a text with one entity, and then it is that of the entity. -/
theorem deserializeFile_eq_ok {format : Format} {path json : String} :
    ((deserializeFile (Console.ofFiles (m := Id) files) format.codec path false).run.run buffer).run =
        (.ok json, buffer) ↔
      ∃ text entity, textIn files path = .ok text ∧
        ((format.codec (m := Id)).deserialize text).run.run = .ok entity ∧
        json = entity.toJson.pretty := by
  rw [run_deserializeFile]
  cases textIn files path with
  | error e => exact iff_of_false nofun nofun
  | ok text =>
    dsimp only
    rw [StateT.run_bind, run_deserialize_buffer, pure_bind]
    -- The text of the file is read as an entity or not, and the buffer stays as it is either way.
    cases hresult : ((format.codec (m := Id)).deserialize text).run.run with
    | error e =>
      refine iff_of_false nofun ?_
      rintro ⟨_, entity, ⟨⟩, hentity, -⟩
      rw [hresult] at hentity
      cases hentity
    | ok entity =>
      refine ⟨fun h => ⟨text, entity, rfl, hresult, ?_⟩, ?_⟩
      · have hjson : (.ok entity.toJson.pretty : Except Report String) = .ok json :=
          congrArg Prod.fst h
        exact (Except.ok.inj hjson).symm
      · rintro ⟨_, _, ⟨⟩, hentity, rfl⟩
        rw [hresult] at hentity
        cases hentity
        rfl

/-- A file with the JSON of an entity is read as the entity, if the content nests no deeper than the
reader goes. -/
theorem entityIn_eq_ok {path : String} {entity found : Entity}
    (h : files path = .ok entity.toJson.pretty.toUTF8) :
    entityIn files path = .ok found ↔ found = entity ∧ entity.content.toJson.depth ≤ 126 := by
  have htext := textIn_of_toUTF8 h
  have hread := @Entity.read_render_iff (.pretty 0) entity found
  have hpretty : entity.toJson.pretty.toList = Json.render (.pretty 0) entity.toJson :=
    String.toList_ofList
  -- The text of the file is the printed JSON, so the reader decides.
  unfold entityIn
  rw [htext]
  dsimp only
  rw [hpretty, ← hread]
  cases Entity.read (Json.render (.pretty 0) entity.toJson) with
  | error e => exact iff_of_false nofun nofun
  | ok found' =>
    dsimp only
    rw [Except.ok.injEq, Except.ok.injEq]

theorem readEntity_eq_ok {path : String} {entity found : Entity}
    (h : files path = .ok entity.toJson.pretty.toUTF8) :
    ((readEntity (Console.ofFiles (m := Id) files) path).run.run buffer).run = (.ok found, buffer) ↔
      found = entity ∧ entity.content.toJson.depth ≤ 126 := by
  rw [readEntity_eq, Prod.mk.injEq, and_iff_left rfl, entityIn_eq_ok h]

/-- A file with a text that cannot be read as an entity is refused for that. -/
theorem entityIn_eq_error {path text : String} (h : textIn files path = .ok text)
    (hread : ∀ found, entityIn files path ≠ .ok found) :
    ∃ error : Json.Error, entityIn files path =
      .error ⟨s!"{path} is not an entity JSON document", [error.message]⟩ := by
  unfold entityIn at hread ⊢
  rw [h] at hread ⊢
  dsimp only at hread ⊢
  cases hresult : Entity.read text.toList with
  | error error => exact ⟨error, rfl⟩
  | ok found =>
    rw [hresult] at hread
    exact absurd rfl (hread found)

end Results

/-- The entity that a text holds nests as deep as the body of the one declaration in the text. -/
theorem depth_of_deserialize {format : Format} {text : String} {entity : Entity}
    (h : ((format.codec (m := Id)).deserialize text).run.run = .ok entity) :
    ∃ es d, Grammar.parse text false = .ok es ∧ Element.declarations es = [d] ∧
      entity.content.toJson.depth = d.body.toJson.depth := by
  obtain ⟨es, d, hparse, hone, -, -, hconvert⟩ := Codec.deserialize_eq_ok.mp h
  obtain ⟨m, -, -, rfl⟩ := Taxonomy.toEntity_declaration_eq_ok.mp hconvert
  have hgrammar := (Engine.run_parse_modelText format.style text false).symm.trans hparse
  exact ⟨es, d, hgrammar, hone, Taxonomy.depth_contentOf m d.path d.body⟩

/-- **Reading back.** What `deserialize` prints for a file of model text is the JSON of the one entity
that the codec reads from the text, and this entity stands for the one declaration of the text. A file
with the printed JSON is read as that entity exactly if the body of the declaration nests at most 126
levels. Otherwise it is refused for not being JSON of an entity. -/
theorem printed_entity_reads_back_iff (format : Format)
    (files : String → Except StreamError ByteArray) (file json : String) (buffer : Buffer)
    (h : ((deserializeFile (Console.ofFiles (m := Id) files) format.codec file false).run.run
      buffer).run = (.ok json, buffer)) :
    ∃ text entity es d, textIn files file = .ok text ∧
      ((format.codec (m := Id)).deserialize text).run.run = .ok entity ∧
      json = entity.toJson.pretty ∧
      Grammar.parse text false = .ok es ∧ Element.declarations es = [d] ∧
      entity.content.toJson.depth = d.body.toJson.depth ∧
      ∀ (files' : String → Except StreamError ByteArray) (path : String),
        files' path = .ok json.toUTF8 →
          (((readEntity (Console.ofFiles (m := Id) files') path).run.run buffer).run =
              (.ok entity, buffer) ↔ d.body.toJson.depth ≤ 126) ∧
          (126 < d.body.toJson.depth → ∃ error : Json.Error,
            ((readEntity (Console.ofFiles (m := Id) files') path).run.run buffer).run =
              (.error ⟨s!"{path} is not an entity JSON document", [error.message]⟩, buffer)) := by
  obtain ⟨text, entity, htext, hentity, rfl⟩ := deserializeFile_eq_ok.mp h
  obtain ⟨es, d, hparse, hone, hdepth⟩ := depth_of_deserialize hentity
  refine ⟨text, entity, es, d, htext, hentity, rfl, hparse, hone, hdepth, fun files' path hfile => ?_⟩
  refine ⟨?_, fun hdeep => ?_⟩
  · rw [readEntity_eq_ok hfile, and_iff_right rfl, hdepth]
  · -- No entity at all is read from such a file, so it must be an error.
    have hrefused : ∀ found, entityIn files' path ≠ .ok found := fun found hfound => by
      rw [entityIn_eq_ok hfile, hdepth] at hfound
      exact absurd hfound.2 (Nat.not_le.mpr hdeep)
    obtain ⟨error, herror⟩ := entityIn_eq_error (textIn_of_toUTF8 hfile) hrefused
    exact ⟨error, (readEntity_eq path).trans (congrArg (·, buffer) herror)⟩

theorem toOption_eq_some {ε α : Type} {x : Except ε α} {a : α} : x.toOption = some a ↔ x = .ok a := by
  cases x <;> simp [Except.toOption]

/-- How deep the content nests of the entity that a text holds in the standard format. -/
def contentDepth? (text : String) : Option Nat := do
  let es ← (Grammar.parse text false).toOption
  let entity ← (Format.standard.entityOf es).toOption
  return entity.content.toJson.depth

/-- A depth that has been computed is that of the entity which the codec reads. -/
theorem contentDepth?_eq_some {text : String} {n : Nat} (h : contentDepth? text = some n) :
    ∃ entity, ((Format.standard.codec (m := Id)).deserialize text).run.run = .ok entity ∧
      entity.content.toJson.depth = n := by
  obtain ⟨es, hes, h⟩ := Option.bind_eq_some_iff.mp h
  obtain ⟨entity, hentity, h⟩ := Option.bind_eq_some_iff.mp h
  refine ⟨entity, ?_, Option.some.inj h⟩
  exact deserialize_eq_ok.mpr ⟨es, toOption_eq_some.mp hes, toOption_eq_some.mp hentity⟩

/-- A number in an array: the printed JSON is read back. -/
theorem printed_entity_reads_back_iff_array :
    let text := String.ofList "###Data\nData a::B\x7b\"x\": [15e-1]\x7d".toList
    let files : String → Except StreamError ByteArray := fun path =>
      if path = "a.pure" then .ok text.toUTF8 else .error .notFound
    ∃ json entity,
      ((deserializeFile (Console.ofFiles (m := Id) files) Format.standard.codec "a.pure" false).run.run
        ⟨none, .empty⟩).run = (.ok json, ⟨none, .empty⟩) ∧
      json = entity.toJson.pretty ∧
      ((readEntity (Console.ofFiles (m := Id) fun _ => .ok json.toUTF8) "b.json").run.run
        ⟨none, .empty⟩).run = (.ok entity, ⟨none, .empty⟩) := by
  intro text files
  have hdepth : contentDepth? text = some 2 := by
    rw [contentDepth?, Grammar.parse, String.toList_ofList]
    decide +kernel
  clear_value text
  obtain ⟨entity, hentity, htwo⟩ := contentDepth?_eq_some hdepth
  have htext : textIn files "a.pure" = .ok text := textIn_of_toUTF8 (if_pos rfl)
  have hjson := (@deserializeFile_eq_ok files ⟨none, .empty⟩ _ _ _).mpr
    ⟨text, entity, htext, hentity, rfl⟩
  obtain ⟨text', entity', es, d, htext', hentity', -, -, -, hbody, hfiles⟩ :=
    printed_entity_reads_back_iff Format.standard files "a.pure" _ ⟨none, .empty⟩ hjson
  obtain rfl := Except.ok.inj (htext.symm.trans htext')
  obtain rfl := Except.ok.inj (hentity.symm.trans hentity')
  obtain ⟨hread, -⟩ := hfiles (fun _ => .ok entity.toJson.pretty.toUTF8) "b.json" rfl
  refine ⟨_, entity, hjson, rfl, hread.mpr ?_⟩
  rw [← hbody, htwo]
  decide

/-- A body of 127 levels, which the grammar accepts: the printed JSON cannot be read. -/
theorem printed_entity_is_refused :
    let text := String.ofList ("Data a::B\x7b\"x\":".toList ++ List.replicate 126 '[' ++
      List.replicate 126 ']' ++ ['\x7d'])
    let files : String → Except StreamError ByteArray := fun path =>
      if path = "a.pure" then .ok text.toUTF8 else .error .notFound
    ∃ json entity,
      ((deserializeFile (Console.ofFiles (m := Id) files) Format.standard.codec "a.pure" false).run.run
        ⟨none, .empty⟩).run = (.ok json, ⟨none, .empty⟩) ∧
      ((Format.standard.codec (m := Id)).deserialize text).run.run = .ok entity ∧
      ((readEntity (Console.ofFiles (m := Id) fun _ => .ok json.toUTF8) "b.json").run.run
        ⟨none, .empty⟩).run ≠ (.ok entity, ⟨none, .empty⟩) := by
  intro text files
  have hdepth : contentDepth? text = some 127 := by
    rw [contentDepth?, Grammar.parse, String.toList_ofList]
    decide +kernel
  -- From here on only the depth of the text counts, and its 250 characters need not be looked at again.
  clear_value text
  obtain ⟨entity, hentity, hdeep⟩ := contentDepth?_eq_some hdepth
  have htext : textIn files "a.pure" = .ok text := textIn_of_toUTF8 (if_pos rfl)
  have hjson := (@deserializeFile_eq_ok files ⟨none, .empty⟩ _ _ _).mpr
    ⟨text, entity, htext, hentity, rfl⟩
  refine ⟨_, entity, hjson, hentity, fun h => ?_⟩
  have hread := (@readEntity_eq_ok (fun _ => .ok entity.toJson.pretty.toUTF8) _ "b.json" entity entity
    rfl).mp h
  rw [hdeep] at hread
  exact absurd hread.2 (by decide)

end CommandLine

end ModelText
