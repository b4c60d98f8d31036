import ModelText.Proofs.Concatenation
import ModelText.Proofs.ReadBack

/-!
# What `serialize` leaves behind

`serialize` writes as it goes, and ends at the first file that has no entity or whose entity has no
text. The files before that one are the longest beginning of the list in which every file can be
written (`Leading`, `IsLongestPrefix`), and which files these are does not depend on the output. What
the output holds in the end is the texts of these files, one after another, as far as there is room for
them (`run_serializeFiles_leading`). Every text ends with a line break, so the texts together are read
as the entities in order (`deserializeMany_join`).
-/

namespace ModelText

/-! ### Buffers -/

namespace Buffer

/-- As much of the bytes as the capacity allows. -/
def kept (capacity : Option Nat) (bytes : ByteArray) : ByteArray :=
  match capacity with
  | none => bytes
  | some n => bytes.extract 0 n

/-- The capacity allows all of the bytes. -/
def Fits (capacity : Option Nat) (bytes : ByteArray) : Prop :=
  ∀ n ∈ capacity, bytes.size ≤ n

variable {capacity : Option Nat} {bytes : ByteArray}

/-- Nothing fits always. -/
theorem fits_empty : Fits capacity .empty := fun n _ => Nat.zero_le n

/-- Without a capacity everything fits. -/
theorem fits_none : Fits none bytes := nofun

/-- With one, it is a matter of size. -/
theorem fits_some {n : Nat} : Fits (some n) bytes ↔ bytes.size ≤ n := by
  unfold Fits
  simp

/-- If both parts fit, the first does. -/
theorem Fits.of_append {more : ByteArray} (h : Fits capacity (bytes ++ more)) :
    Fits capacity bytes := by
  intro n hn
  have hle := h n hn
  rw [ByteArray.size_append] at hle
  exact (Nat.le_add_right _ _).trans hle

/-- What fits is kept as it is. -/
theorem kept_of_fits (h : Fits capacity bytes) : kept capacity bytes = bytes := by
  cases capacity with
  | none => rfl
  | some n =>
    -- Taking more than there is takes all.
    calc bytes.extract 0 n
        = bytes.extract 0 (max n bytes.size) := by rw [Nat.max_eq_left (fits_some.mp h)]
      _ = bytes := ByteArray.extract_zero_max_size

/-- Bytes that fit are all kept, and then what there is room for. -/
theorem kept_append (h : Fits capacity bytes) (more : ByteArray) :
    kept capacity (bytes ++ more) = bytes ++ fitting ⟨capacity, bytes⟩ more := by
  cases capacity with
  | none => rfl
  | some n =>
    have hkept : bytes.extract 0 n = bytes := kept_of_fits h
    calc (bytes ++ more).extract 0 n
        = bytes.extract 0 n ++ more.extract (0 - bytes.size) (n - bytes.size) :=
          ByteArray.extract_append
      _ = bytes ++ more.extract 0 (n - bytes.size) := by rw [hkept, Nat.zero_sub]

/-- Once there is no room, nothing else gets in. -/
theorem kept_append_of_not_fits (h : ¬ Fits capacity bytes) (more : ByteArray) :
    kept capacity (bytes ++ more) = kept capacity bytes := by
  cases capacity with
  | none => exact absurd fits_none h
  | some n =>
    have hfull : n - bytes.size = 0 :=
      Nat.sub_eq_zero_of_le (Nat.not_le.mp (mt fits_some.mpr h)).le
    have hnone : more.extract (0 - bytes.size) (n - bytes.size) = .empty := by
      rw [ByteArray.extract_eq_empty_iff, hfull, Nat.zero_min]
      exact Nat.zero_le _
    calc (bytes ++ more).extract 0 n
        = bytes.extract 0 n ++ more.extract (0 - bytes.size) (n - bytes.size) :=
          ByteArray.extract_append
      _ = bytes.extract 0 n := by rw [hnone, ByteArray.append_empty]

/-- Less than all of a further part goes into a buffer if the whole does not fit. -/
theorem size_fitting_lt_iff (h : Fits capacity bytes) (more : ByteArray) :
    (fitting ⟨capacity, bytes⟩ more).size < more.size ↔ ¬ Fits capacity (bytes ++ more) := by
  cases capacity with
  | none => exact iff_of_false (Nat.lt_irrefl _) (not_not.mpr fits_none)
  | some n =>
    -- What is there already fits, so the room that is left can be told.
    have hle := fits_some.mp h
    rw [fits_some, ByteArray.size_append]
    unfold fitting
    dsimp only
    rw [ByteArray.size_extract]
    omega

/-- Bytes that there is room for are taken. -/
theorem write_of_fits {more : ByteArray} (h : Fits capacity (bytes ++ more)) :
    write more ⟨capacity, bytes⟩ = (.ok (), ⟨capacity, bytes ++ more⟩) := by
  unfold write
  dsimp only
  rw [if_neg (mt (size_fitting_lt_iff h.of_append more).mp (not_not.mpr h)),
    ← kept_append h.of_append, kept_of_fits h]

/-- Bytes that there is no room for are taken in part. -/
theorem write_of_not_fits {more : ByteArray} (hfits : Fits capacity bytes)
    (h : ¬ Fits capacity (bytes ++ more)) :
    write more ⟨capacity, bytes⟩ =
      (.error .bufferFull, ⟨capacity, kept capacity (bytes ++ more)⟩) := by
  unfold write
  dsimp only
  rw [if_pos ((size_fitting_lt_iff hfits more).mpr h), ← kept_append hfits]

end Buffer

/-! ### Texts one after another -/

/-- The text of an entity ends its last line. -/
theorem Format.exists_lines_of_written {format : Format} {entity : Entity} {text : String}
    (h : format.written entity = .ok text) : ∃ lines, text = lines ++ "\n" := by
  obtain ⟨element, hfrom, hcompose⟩ := Format.written_eq_ok.mp h
  obtain ⟨m, -, -, rfl⟩ := Taxonomy.fromEntity_eq_ok.mp hfrom
  rw [Grammar.compose_declaration] at hcompose
  cases hrender : Grammar.renderDeclaration format.style _ with
  | error e =>
    rw [hrender] at hcompose
    cases hcompose
  | ok chunk =>
    rw [hrender] at hcompose
    have htext : String.ofList (chunk ++ ['\n']) = text := Except.ok.inj hcompose
    exact ⟨String.ofList chunk, by rw [← htext, String.ofList_append]⟩

/-- The empty text has no entities. -/
theorem deserializeMany_empty (format : Format) :
    ((format.codec (m := Id)).deserializeMany "").run.run = .ok [] :=
  deserializeMany_eq_ok.mpr ⟨[], by cbv, nofun, .nil⟩

/-- The bytes of a text are read as the text. -/
theorem deserializeManyBytes_toUTF8 (format : Format) (text : String) :
    (format.codec (m := Id)).deserializeManyBytes text.toUTF8 =
      (format.codec (m := Id)).deserializeMany text := by
  unfold Codec.deserializeManyBytes Codec.decode
  rw [decodeText_toUTF8]
  rfl

/-- **Reading back.** The texts of some entities, one after another, are read as these entities. -/
theorem deserializeMany_join (format : Format) {entities : List Entity} {texts : List String}
    (h : List.Forall₂ (fun entity text => format.written entity = .ok text) entities texts) :
    ((format.codec (m := Id)).deserializeMany (String.join texts)).run.run = .ok entities := by
  induction h with
  | nil =>
    rw [String.join_nil]
    exact deserializeMany_empty format
  | @cons entity text entities texts hhead htail ih =>
    have hone : ((format.codec (m := Id)).deserializeMany text).run.run = .ok [entity] := by
      rw [run_deserializeMany_of_written hhead]
      rfl
    obtain ⟨lines, rfl⟩ := Format.exists_lines_of_written hhead
    rw [String.join_cons]
    exact deserializeMany_append_of_endsLine (endsLine_append_newline lines) hone ih

namespace CommandLine

/-! ### Files that are written -/

/-- A beginning of a list in which everything has a property, and than which no such beginning is
longer. -/
structure IsLongestPrefix {α : Type} (p : α → Prop) (done all : List α) : Prop where
  isPrefix : done <+: all
  forall_mem : ∀ a ∈ done, p a
  longest : ∀ other, other <+: all → (∀ a ∈ other, p a) → other <+: done

/-- The files at the beginning that hold entities with texts, the entities and their texts. -/
inductive Leading (format : Format) (files : String → Except StreamError ByteArray) :
    List String → List String → List Entity → List String → Prop
  /-- There is no file. -/
  | nil : Leading format files [] [] [] []
  /-- The first file cannot be written. -/
  | stop {path : String} {paths : List String}
      (h : ∀ entity text, Holds files path entity → format.written entity ≠ .ok text) :
      Leading format files (path :: paths) [] [] []
  /-- The first file is written. -/
  | cons {path : String} {paths done : List String} {entity : Entity} {entities : List Entity}
      {text : String} {texts : List String} (hholds : Holds files path entity)
      (htext : format.written entity = .ok text)
      (h : Leading format files paths done entities texts) :
      Leading format files (path :: paths) (path :: done) (entity :: entities) (text :: texts)

section Files

variable {format : Format} {files : String → Except StreamError ByteArray}
  {path : String} {paths done : List String} {entity : Entity} {entities : List Entity}
  {texts : List String}

/-- A file has a text if it can be read and decodes to it. -/
theorem textIn_eq_ok {text : String} :
    textIn files path = .ok text ↔ ∃ bytes, files path = .ok bytes ∧ decodeText bytes = .ok text :=
  Json.Reader.bind_eq_ok

/-- A file that holds no entity is refused, whatever is wrong with it. -/
theorem entityIn_of_not_holds (h : ∀ entity, ¬ Holds files path entity) :
    ∃ report, entityIn files path = .error report := by
  unfold entityIn
  cases htext : textIn files path with
  | error e => exact ⟨_, rfl⟩
  | ok text =>
    dsimp only
    cases hread : Entity.read text.toList with
    | error e => exact ⟨_, rfl⟩
    | ok entity =>
      obtain ⟨bytes, hbytes, hdecode⟩ := textIn_eq_ok.mp htext
      exact absurd ⟨bytes, text, hbytes, hdecode, hread⟩ (h entity)

/-- Every list of files has a longest part at its front that can be written. -/
theorem exists_leading (format : Format) (files : String → Except StreamError ByteArray)
    (paths : List String) : ∃ done entities texts, Leading format files paths done entities texts := by
  -- By induction on the files, up to the first that cannot be written.
  induction paths with
  | nil => exact ⟨[], [], [], .nil⟩
  | cons path paths ih =>
    by_cases hfile : ∃ entity text, Holds files path entity ∧ format.written entity = .ok text
    · obtain ⟨entity, text, hholds, htext⟩ := hfile
      obtain ⟨done, entities, texts, h⟩ := ih
      exact ⟨_, _, _, .cons hholds htext h⟩
    · refine ⟨[], [], [], .stop ?_⟩
      intro entity text hholds htext
      exact hfile ⟨entity, text, hholds, htext⟩

/-- The files that are written hold the entities. -/
theorem Leading.holds (h : Leading format files paths done entities texts) :
    List.Forall₂ (Holds files) done entities := by
  induction h with
  | nil => exact .nil
  | stop h => exact .nil
  | cons hholds htext h ih => exact .cons hholds ih

/-- The entities are written as the texts. -/
theorem Leading.written (h : Leading format files paths done entities texts) :
    List.Forall₂ (fun entity text => format.written entity = .ok text) entities texts := by
  induction h with
  | nil => exact .nil
  | stop h => exact .nil
  | cons hholds htext h ih => exact .cons htext ih

/-- No longer part at the front can be written. -/
theorem Leading.isLongestPrefix (h : Leading format files paths done entities texts) :
    IsLongestPrefix
      (fun path => ∃ entity text, Holds files path entity ∧ format.written entity = .ok text)
      done paths := by
  -- By induction on the part. It stops at a file that no longer part could contain.
  induction h with
  | nil => exact ⟨List.prefix_refl _, nofun, fun other hother _ => hother⟩
  | @stop path paths h =>
    refine ⟨List.nil_prefix, nofun, ?_⟩
    intro other hother hall
    cases other with
    | nil => exact List.prefix_refl _
    | cons path' other =>
      obtain ⟨rfl, -⟩ := List.cons_prefix_cons.mp hother
      obtain ⟨entity, text, hholds, htext⟩ := hall path' List.mem_cons_self
      exact absurd htext (h entity text hholds)
  | @cons path paths done entity entities text texts hholds htext h ih =>
    refine ⟨List.cons_prefix_cons.mpr ⟨rfl, ih.isPrefix⟩, ?_, ?_⟩
    · rw [List.forall_mem_cons]
      exact ⟨⟨entity, text, hholds, htext⟩, ih.forall_mem⟩
    · intro other hother hall
      cases other with
      | nil => exact List.nil_prefix
      | cons path' other =>
        obtain ⟨rfl, htail⟩ := List.cons_prefix_cons.mp hother
        obtain ⟨-, hall⟩ := List.forall_mem_cons.mp hall
        exact List.cons_prefix_cons.mpr ⟨rfl, ih.longest other htail hall⟩

/-! ### The run -/

/-- A file that cannot be read as an entity is the end. -/
theorem run_serializeFiles_of_unread {report : Report} (h : entityIn files path = .error report)
    (paths : List String) (buffer : Buffer) :
    ((serializeFiles (Console.ofFiles (m := Id) files) format.codec (path :: paths)).run.run
      buffer).run = (.error report, buffer) := by
  unfold serializeFiles
  rw [ExceptT.run_bind, readEntity_ofFiles, h]
  rfl

/-- A file that cannot be written is the end, and nothing of it gets to the buffer. -/
theorem run_serializeFiles_of_stop
    (h : ∀ entity text, Holds files path entity → format.written entity ≠ .ok text)
    (paths : List String) (buffer : Buffer) :
    ∃ report, ((serializeFiles (Console.ofFiles (m := Id) files) format.codec (path :: paths)).run.run
      buffer).run = (.error report, buffer) := by
  by_cases hholds : ∃ entity, Holds files path entity
  · obtain ⟨entity, hentity⟩ := hholds
    cases hwritten : format.written entity with
    | error error =>
      have hrun := run_serializeFiles_of_error (m := Id) hentity hwritten paths buffer
      exact ⟨_, congrArg Id.run hrun⟩
    | ok text => exact absurd hwritten (h entity text hentity)
  · obtain ⟨report, hreport⟩ := entityIn_of_not_holds (not_exists.mp hholds)
    exact ⟨report, run_serializeFiles_of_unread hreport paths buffer⟩

/-- **The run.** Whatever has been written before, as long as there was room for all of it: the buffer
then holds that and the texts of the leading files, as far as there is room. The command comes to its
end if these are all the files and there is room for all of the texts. -/
theorem run_serializeFiles_leading (h : Leading format files paths done entities texts)
    {capacity : Option Nat} {bytes : ByteArray} (hfits : Buffer.Fits capacity bytes) :
    ∃ result, ((serializeFiles (Console.ofFiles (m := Id) files) format.codec paths).run.run
        ⟨capacity, bytes⟩).run =
        (result, ⟨capacity, Buffer.kept capacity (bytes ++ (String.join texts).toUTF8)⟩) ∧
      (result = .ok () ↔
        done = paths ∧ Buffer.Fits capacity (bytes ++ (String.join texts).toUTF8)) := by
  -- By induction on the leading files, for any bytes so far, since these grow.
  induction h generalizing bytes with
  | nil =>
    have hempty : bytes ++ (String.join []).toUTF8 = bytes := ByteArray.append_empty
    rw [hempty, Buffer.kept_of_fits hfits]
    exact ⟨.ok (), rfl, iff_of_true rfl ⟨rfl, hfits⟩⟩
  | @stop path paths hstop =>
    have hempty : bytes ++ (String.join []).toUTF8 = bytes := ByteArray.append_empty
    rw [hempty, Buffer.kept_of_fits hfits]
    obtain ⟨report, hrun⟩ := run_serializeFiles_of_stop hstop paths ⟨capacity, bytes⟩
    exact ⟨.error report, hrun, iff_of_false nofun nofun⟩
  | @cons path paths done entity entities text texts hholds htext hleading ih =>
    have hjoin : bytes ++ (String.join (text :: texts)).toUTF8 =
        bytes ++ text.toUTF8 ++ (String.join texts).toUTF8 := by
      rw [String.join_cons, ByteArray.append_assoc]
      exact congrArg (bytes ++ ·) String.toByteArray_append
    rw [hjoin]
    by_cases hroom : Buffer.Fits capacity (bytes ++ text.toUTF8)
    · have hstep := run_serializeFiles_of_taken (m := Id) hholds htext
        (Buffer.write_of_fits hroom) paths
      obtain ⟨result, hrun, hresult⟩ := ih hroom
      refine ⟨result, (congrArg Id.run hstep).trans hrun, hresult.trans ?_⟩
      rw [List.cons_inj_right]
    · have hstep := run_serializeFiles_of_refused (m := Id) hholds htext
        (Buffer.write_of_not_fits hfits hroom) paths
      rw [Buffer.kept_append_of_not_fits hroom]
      refine ⟨.error _, congrArg Id.run hstep, iff_of_false nofun ?_⟩
      intro hall
      exact hroom hall.2.of_append

/-- What becomes of some files that are serialized to an output of some capacity: the result, and what
the output holds. -/
def serialized (format : Format) (files : String → Except StreamError ByteArray)
    (paths : List String) (capacity : Option Nat) : Except Report Unit × ByteArray :=
  let (result, buffer) := ((serializeFiles (Console.ofFiles (m := Id) files) format.codec paths).run.run
    { capacity }).run
  (result, buffer.written)

/-- What a run leaves behind are the texts of this part, as far as they fit, and it succeeds if the part
is everything and fits. -/
theorem serialized_leading (h : Leading format files paths done entities texts)
    (capacity : Option Nat) :
    (serialized format files paths capacity).2 = Buffer.kept capacity (String.join texts).toUTF8 ∧
      ((serialized format files paths capacity).1 = .ok () ↔
        done = paths ∧ Buffer.Fits capacity (String.join texts).toUTF8) := by
  obtain ⟨result, hrun, hok⟩ := run_serializeFiles_leading h (Buffer.fits_empty : Buffer.Fits capacity _)
  rw [ByteArray.empty_append] at hrun hok
  unfold serialized
  rw [hrun]
  exact ⟨rfl, hok⟩

end Files

/-- **Whole texts.** Of any files, serialize those at the beginning of the list that hold entities with
texts, up to the first that does not. An output without a limit then holds the texts of these entities,
one after another, which are read as these entities in order, and the command succeeds exactly if these
are all the files. An output that takes `n` bytes holds the first `n` bytes of those texts. An entity
that has no text leaves every output as it is. -/
theorem serializeFiles_leaves_whole_texts (format : Format)
    (files : String → Except StreamError ByteArray) (paths : List String) :
    ∃ done entities texts,
      IsLongestPrefix (fun path => ∃ entity text, Holds files path entity ∧
        ((format.codec (m := Id)).serialize entity).run.run = .ok text) done paths ∧
      List.Forall₂ (Holds files) done entities ∧
      List.Forall₂ (fun entity text =>
        ((format.codec (m := Id)).serialize entity).run.run = .ok text) entities texts ∧
      (serialized format files paths none).2 = (String.join texts).toUTF8 ∧
      ((serialized format files paths none).1 = .ok () ↔ done = paths) ∧
      ((format.codec (m := Id)).deserializeManyBytes
        (serialized format files paths none).2).run.run = .ok entities ∧
      (∀ n, (serialized format files paths (some n)).2 = (String.join texts).toUTF8.extract 0 n ∧
        ((serialized format files paths (some n)).1 = .ok () ↔
          done = paths ∧ (String.join texts).utf8ByteSize ≤ n)) ∧
      ∀ entity error, ((format.codec (m := Id)).serialize entity).run.run = .error error →
        ∀ buffer, (((format.codec (m := StateT Buffer Id)).serializeTo Buffer.sink entity).run.run
          buffer).run = (.error error, buffer) := by
  obtain ⟨done, entities, texts, h⟩ := exists_leading format files paths
  have htexts := h.written
  have hnone := serialized_leading h none
  have hread : ((format.codec (m := Id)).deserializeManyBytes (String.join texts).toUTF8).run.run =
      .ok entities := by
    rw [deserializeManyBytes_toUTF8]
    exact deserializeMany_join format htexts
  -- The texts and the entities are those of the longest part that can be written; the claims about the
  -- run follow from it, for no capacity and for any.
  simp only [serialize_eq_ok]
  refine ⟨done, entities, texts, h.isLongestPrefix, h.holds, htexts, hnone.1, ?_, ?_, ?_, ?_⟩
  · rw [hnone.2, and_iff_left Buffer.fits_none]
  · rw [hnone.1]
    exact hread
  · intro n
    obtain ⟨hbytes, hok⟩ := serialized_leading h (some n)
    rw [Buffer.fits_some] at hok
    exact ⟨hbytes, hok⟩
  · intro entity error herror buffer
    have hwritten := Format.written_eq_iff.mpr (run_serialize_eq_iff.mp herror)
    exact congrArg Id.run (run_serializeTo_of_error (m := Id) hwritten buffer)

end CommandLine

end ModelText
