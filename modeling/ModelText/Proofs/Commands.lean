import ModelText.CommandLine.Run
import ModelText.Proofs.Probing

/-!
# Commands over files

`check` and `serialize` go through the same files and ask the codec about the entity in each of them.
Here the files stay as they are while a command runs, each holds an entity (`Holds`), and what is
written goes to a buffer. Then `check` tells of every entity whether it has a text (`run_checkFiles`),
and `serialize`, into a buffer without a limit, comes to its end if each of them has one
(`serializeFiles_eq_ok`).
-/

namespace ModelText

/-- The bytes of a text are the text again. -/
theorem decodeText_toUTF8 (text : String) : decodeText text.toUTF8 = .ok text := by
  have h : String.fromUTF8? text.toUTF8 = some text := dif_pos text.isValidUTF8
  unfold decodeText
  rw [h]

theorem Buffer.write_of_unlimited {buffer : Buffer} (h : buffer.capacity = none) (bytes : ByteArray) :
    buffer.write bytes = (.ok (), { buffer with written := buffer.written ++ bytes }) := by
  have hfitting : buffer.fitting bytes = bytes := by
    unfold Buffer.fitting
    rw [h]
  unfold Buffer.write
  dsimp only
  rw [hfitting, if_neg (Nat.lt_irrefl _)]

namespace CommandLine

/-- Files that stay as they are while a command runs, and a buffer that takes what it writes. -/
def Console.ofFiles {m : Type → Type} [Monad m] (files : String → Except StreamError ByteArray) :
    Console (StateT Buffer m) where
  bytesOf path := pure (files path)
  output := Buffer.sink

/-- A file has the JSON of an entity. -/
def Holds (files : String → Except StreamError ByteArray) (path : String) (entity : Entity) : Prop :=
  ∃ bytes text, files path = .ok bytes ∧ decodeText bytes = .ok text ∧
    Entity.read text.toList = .ok entity

section Setting

variable {m : Type → Type} [Monad m] [LawfulMonad m]
  {files : String → Except StreamError ByteArray}

/-- A file that holds an entity is read as it. -/
theorem readEntity_of_holds {path : String} {entity : Entity} (h : Holds files path entity) :
    readEntity (Console.ofFiles (m := m) files) path = pure entity := by
  obtain ⟨bytes, text, hbytes, htext, hentity⟩ := h
  have hread : readText (Console.ofFiles (m := m) files) path = pure text := by
    unfold readText Console.ofFiles
    dsimp only
    rw [hbytes, mk_pure_ok, pure_bind, htext, mk_pure_ok]
  -- With the text at hand, reading the entity cannot fail.
  unfold readEntity
  rw [hread, adapt_pure, pure_bind, hentity]

variable [Journal m]

/-! ### Checking -/

/-- **Checking.** Files that hold entities are all looked at, and the answer about each of the
entities is whether it has a text. -/
theorem run_checkFiles (format : Format) {paths : List String} {entities : List Entity}
    (h : List.Forall₂ (Holds files) paths entities) :
    (checkFiles (Console.ofFiles (m := m) files) format.codec paths).run = (do
      Journal.recordAll (entities.flatMap format.probeEvents)
      pure (.ok (entities.map fun entity => (entity.path, format.writes entity)))) := by
  -- By induction on the files. The events of a probe come first, then those of the other files.
  induction h with
  | nil =>
    rw [List.flatMap_nil, Journal.recordAll_nil, pure_bind]
    rfl
  | @cons path entity paths entities hhead htail ih =>
    unfold checkFiles
    rw [readEntity_of_holds hhead, pure_bind, run_canSerialize]
    rw [run_liftM_bind, bind_assoc, List.flatMap_cons, Journal.recordAll_append, bind_assoc]
    refine bind_congr fun _ => ?_
    rw [pure_bind, ExceptT.run_bind, ih, bind_assoc]
    simp only [pure_bind]
    rfl

/-! ### Serializing -/

/-- An entity with a text is offered to the buffer, which may have no room for the end of it. -/
theorem run_serializeTo_of_written {format : Format} {entity : Entity} {text : String}
    (h : format.written entity = .ok text) (buffer : Buffer) :
    ((format.codec (m := StateT Buffer m)).serializeTo Buffer.sink entity).run.run buffer = (do
      Journal.record (.composed 1 text.utf8ByteSize)
      pure ((buffer.write text.toUTF8).1.mapError .stream, (buffer.write text.toUTF8).2)) := by
  unfold Codec.serializeTo
  rw [ExceptT.run_bind, run_serialize, h]
  dsimp only
  simp only [bind_assoc, pure_bind]
  rw [StateT.run_bind]
  have hsink : (Buffer.sink text.toUTF8 : StateT Buffer m (Except StreamError Unit)).run buffer =
      pure (buffer.write text.toUTF8) := rfl
  rw [Journal.run_record, bind_assoc]
  -- The event is reported first, and then the bytes are offered.
  refine bind_congr fun _ => ?_
  rw [pure_bind]
  rw [run_liftM_bind, StateT.run_bind, hsink, pure_bind]
  cases (buffer.write text.toUTF8).1 <;> rfl

/-- An entity without a text leaves the buffer as it is. -/
theorem run_serializeTo_of_error {format : Format} {entity : Entity} {error : CodecError}
    (h : format.written entity = .error error) (buffer : Buffer) :
    ((format.codec (m := StateT Buffer m)).serializeTo Buffer.sink entity).run.run buffer =
      (pure (.error error, buffer) : m _) := by
  unfold Codec.serializeTo
  rw [ExceptT.run_bind, run_serialize, h]
  rw [pure_bind, StateT.run_pure]

/-- Of a file that holds an entity, the entity is written, and if that succeeds the other files
follow. -/
theorem run_serializeFiles_of_holds {format : Format} {path : String} {entity : Entity}
    (hholds : Holds files path entity) (paths : List String) (buffer : Buffer) :
    (serializeFiles (Console.ofFiles (m := m) files) format.codec (path :: paths)).run.run buffer =
      (do
        let (result, buffer') ← (format.codec.serializeTo Buffer.sink entity).run.run buffer
        match result with
        | .error error =>
          pure (.error (.ofCodec s!"Failed to serialize {entity.path}" error), buffer')
        | .ok () => do
          Journal.record (.entityWritten entity.path path)
          (serializeFiles (Console.ofFiles files) format.codec paths).run.run buffer') := by
  -- Only the command on all files is unfolded, not the one on the rest.
  conv_lhs => unfold serializeFiles
  rw [readEntity_of_holds hholds, pure_bind, ExceptT.run_bind, ExceptT.run_adapt, StateT.run_bind,
    StateT.run_map, bind_map_left]
  refine bind_congr fun step => ?_
  obtain ⟨result, buffer'⟩ := step
  cases result with
  | error error => rfl
  | ok _ =>
    dsimp only [Except.mapError]
    rw [run_record_bind, StateT.run_bind, Journal.run_record, bind_assoc]
    simp only [pure_bind]

/-- A file whose entity has a text is done if the buffer takes the text, and the other files follow. -/
theorem run_serializeFiles_of_taken {format : Format} {path : String} {entity : Entity}
    {text : String} {buffer buffer' : Buffer} (hholds : Holds files path entity)
    (h : format.written entity = .ok text) (htaken : buffer.write text.toUTF8 = (.ok (), buffer'))
    (paths : List String) :
    (serializeFiles (Console.ofFiles (m := m) files) format.codec (path :: paths)).run.run buffer =
      (do
        Journal.record (.composed 1 text.utf8ByteSize)
        Journal.record (.entityWritten entity.path path)
        (serializeFiles (Console.ofFiles files) format.codec paths).run.run buffer') := by
  rw [run_serializeFiles_of_holds hholds, run_serializeTo_of_written h, htaken, bind_assoc]
  simp only [pure_bind]
  rfl

/-- A file whose text the buffer has no room for is the end. -/
theorem run_serializeFiles_of_refused {format : Format} {path : String} {entity : Entity}
    {text : String} {buffer buffer' : Buffer} {error : StreamError} (hholds : Holds files path entity)
    (h : format.written entity = .ok text)
    (hrefused : buffer.write text.toUTF8 = (.error error, buffer')) (paths : List String) :
    (serializeFiles (Console.ofFiles (m := m) files) format.codec (path :: paths)).run.run buffer =
      (do
        Journal.record (.composed 1 text.utf8ByteSize)
        pure (.error (.ofCodec s!"Failed to serialize {entity.path}" (.stream error)), buffer')) := by
  rw [run_serializeFiles_of_holds hholds, run_serializeTo_of_written h, hrefused, bind_assoc]
  simp only [pure_bind]
  rfl

/-- A file whose entity has no text is the end. -/
theorem run_serializeFiles_of_error {format : Format} {path : String} {entity : Entity}
    {error : CodecError} (hholds : Holds files path entity)
    (h : format.written entity = .error error) (paths : List String) (buffer : Buffer) :
    (serializeFiles (Console.ofFiles (m := m) files) format.codec (path :: paths)).run.run buffer =
      (pure (.error (.ofCodec s!"Failed to serialize {entity.path}" error), buffer) : m _) := by
  rw [run_serializeFiles_of_holds hholds, run_serializeTo_of_error h, pure_bind]

end Setting

/-! ### Results -/

/-- `serialize` comes to its end exactly if the entity in each of the files has a text. -/
theorem serializeFiles_eq_ok (format : Format) {files : String → Except StreamError ByteArray}
    {paths : List String} {entities : List Entity} (h : List.Forall₂ (Holds files) paths entities)
    {buffer : Buffer} (hbuffer : buffer.capacity = none) (log : List Event) :
    (((serializeFiles (Console.ofFiles (m := Journaled) files) format.codec paths).run.run
        buffer).run log).1.1 = .ok () ↔
      ∀ entity ∈ entities, format.writes entity = true := by
  -- By induction on the files, for any buffer without a limit and any log, since both grow.
  induction h generalizing buffer log with
  | nil => exact ⟨fun _ _ hmem => absurd hmem List.not_mem_nil, fun _ => rfl⟩
  | @cons path entity paths entities hhead htail ih =>
    rw [List.forall_mem_cons]
    -- An entity without a text ends the command; one with a text leaves the others to it.
    cases hwritten : format.written entity with
    | error e =>
      have hno : format.writes entity ≠ true := by
        intro hwrites
        obtain ⟨text, htext⟩ := Format.writes_eq_true.mp hwrites
        rw [hwritten] at htext
        cases htext
      rw [run_serializeFiles_of_error hhead hwritten]
      constructor
      · rintro ⟨⟩
      · intro hall
        exact absurd hall.1 hno
    | ok text =>
      have hwrites := Format.writes_eq_true.mpr ⟨text, hwritten⟩
      have hrest := @ih { buffer with written := buffer.written ++ text.toUTF8 } hbuffer
        (log ++ [.composed 1 text.utf8ByteSize] ++ [.entityWritten entity.path path])
      rw [run_serializeFiles_of_taken hhead hwritten (Buffer.write_of_unlimited hbuffer _)]
      exact hrest.trans ⟨fun hall => ⟨hwrites, hall⟩, fun hall => hall.2⟩

/-- With a journal the answers of the check are the same, and the buffer is not touched. -/
theorem checkFiles_journaled (format : Format) {files : String → Except StreamError ByteArray}
    {paths : List String} {entities : List Entity} (h : List.Forall₂ (Holds files) paths entities)
    (buffer : Buffer) (log : List Event) :
    (((checkFiles (Console.ofFiles (m := Journaled) files) format.codec paths).run.run
      buffer).run log).1 =
      (.ok (entities.map fun entity => (entity.path, format.writes entity)), buffer) := by
  rw [run_checkFiles format h, StateT.run_bind, Journal.run_recordAll]
  rfl

/-- **Checking and serializing agree.** A probe says yes to just the entities that the codec writes.
Each of those is read back from its text, so no probe fails in reading or reports that it did. Hence,
of files that all hold entities, `check` says yes to every one exactly if `serialize` comes to its end
with a buffer that has no limit. -/
theorem check_agrees_with_serialize (format : Format) :
    (∀ (entity : Entity) (log : List Event),
      ((((format.codec (m := Journaled)).canSerialize entity).run log).1 = true ↔
        ∃ text, (((format.codec (m := Journaled)).serialize entity).run.run log).1 = .ok text) ∧
      (∀ text, (((format.codec (m := Journaled)).serialize entity).run.run log).1 = .ok text →
        ∀ log', (((format.codec (m := Journaled)).deserialize text).run.run log').1 = .ok entity) ∧
      (∀ error, (((format.codec (m := Journaled)).probe entity).run.run log).1 ≠
        .error (.roundTrip error)) ∧
      ∃ events,
        (((format.codec (m := Journaled)).canSerialize entity).run log).2 = log ++ events ∧
        ∀ event ∈ events,
          event.message ≠ "Unable to deserialize entity after serializing it") ∧
    ∀ (files : String → Except StreamError ByteArray) (paths : List String)
      (entities : List Entity), List.Forall₂ (Holds files) paths entities →
      ∀ (buffer : Buffer) (log : List Event), buffer.capacity = none →
        ∃ results : List (String × Bool),
          (((checkFiles (Console.ofFiles (m := Journaled) files) format.codec paths).run.run
            buffer).run log).1 = (.ok results, buffer) ∧
          results.map (·.1) = entities.map (·.path) ∧
          (results.all (·.2) = true ↔
            (((serializeFiles (Console.ofFiles (m := Journaled) files) format.codec paths).run.run
              buffer).run log).1.1 = .ok ()) := by
  refine ⟨fun entity log => ⟨?_, ?_, probe_journaled format entity log, ?_⟩, ?_⟩
  · rw [canSerialize_journaled, serialize_journaled]
    exact Format.writes_eq_true
  · intro text hserialize log'
    rw [serialize_journaled] at hserialize
    exact deserialize_journaled hserialize log'
  · rw [canSerialize_journaled]
    exact ⟨format.probeEvents entity, rfl, fun _ => Format.message_of_mem_probeEvents⟩
  · intro files paths entities hholds buffer log hbuffer
    refine ⟨_, checkFiles_journaled format hholds buffer log, by simp, ?_⟩
    rw [serializeFiles_eq_ok format hholds hbuffer log]
    simp

/-- One file, with a class that has a text. -/
theorem check_agrees_with_serialize_class :
    let text := "[\"a::B\", \"meta::pure::metamodel::type::Class\", " ++
      "\x7b\"_type\": \"class\", \"package\": \"a\", \"name\": \"B\"\x7d]"
    let files : String → Except StreamError ByteArray := fun path =>
      if path = "b.json" then .ok text.toUTF8 else .error .notFound
    let content := ((Json.Object.empty.insertString "_type" "class").insertString "name" "B"
      ).insertString "package" "a"
    let entity : Entity := ⟨"a::B", "meta::pure::metamodel::type::Class", content⟩
    Holds files "b.json" entity ∧
      (((Format.standard.codec (m := Journaled)).serialize entity).run.run []).1 =
        .ok "Class a::B\n\x7b\x7d\n" ∧
      (((Format.standard.codec (m := Journaled)).deserialize "Class a::B\n\x7b\x7d\n").run.run
        []).1 = .ok entity ∧
      ∃ results : List (String × Bool),
        (((checkFiles (Console.ofFiles (m := Journaled) files) Format.standard.codec
          ["b.json"]).run.run ⟨none, .empty⟩).run []).1 = (.ok results, ⟨none, .empty⟩) ∧
        results.map (·.1) = ["a::B"] ∧
        (results.all (·.2) = true ↔
          (((serializeFiles (Console.ofFiles (m := Journaled) files) Format.standard.codec
            ["b.json"]).run.run ⟨none, .empty⟩).run []).1.1 = .ok ()) := by
  intro text files content entity
  have hread : Entity.read text.toList = .ok entity := by
    dsimp only [text, entity, content]
    cbv
  have hholds : Holds files "b.json" entity :=
    ⟨text.toUTF8, text, if_pos rfl, decodeText_toUTF8 text, hread⟩
  have hserialize :
      (((Format.standard.codec (m := Journaled)).serialize entity).run.run []).1 =
        .ok "Class a::B\n\x7b\x7d\n" := by
    cbv
  obtain ⟨hprobes, hcommands⟩ := check_agrees_with_serialize Format.standard
  exact ⟨hholds, hserialize, (hprobes entity []).2.1 _ hserialize [],
    hcommands files ["b.json"] [entity] (.cons hholds .nil) ⟨none, .empty⟩ [] rfl⟩

end CommandLine

end ModelText
