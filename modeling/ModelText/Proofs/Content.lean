import ModelText.Proofs.Probing

/-!
# What is read can be written

The entities that a text holds are what the content of its parse is taken to (`deserialize_eq_ok`,
`deserializeMany_eq_ok`). Each of them comes from a declaration that the grammar can write and the
taxonomy has a kind for, so it has a text of its own (`Format.exists_written_of_toEntity`), whatever
else the text it was read from held. This is the other half of the round trip: there the entity comes
first, here the text does.
-/

namespace ModelText

open Grammar
open Json.Reader (bind_eq_ok)

/-! ### Content -/

/-- Selecting one element selects one of the parse. -/
theorem mem_of_classify {es : List Element} {content : Element} (h : classify es = .ok content) :
    content ∈ es := by
  unfold classify at h
  split at h
  · cases h
  · cases h
  · cases h
    exact List.mem_singleton_self _
  · -- An index in front has to be free of imports, and then it is left out.
    obtain ⟨_, -, h⟩ := bind_eq_ok.mp h
    split at h
    · cases h
    · cases h
      exact List.mem_cons_of_mem _ List.mem_cons_self
  · obtain ⟨_, -, h⟩ := bind_eq_ok.mp h
    cases h
    exact List.mem_cons_self
  · cases h
  · dsimp only at h
    split at h <;> cases h

/-- A check passes for a list if it does for each of its elements. -/
theorem forM_eq_ok {ε α : Type} {f : α → Except ε Unit} {as : List α} :
    as.forM f = .ok () ↔ ∀ a ∈ as, f a = .ok () := by
  -- By induction on the list.
  induction as with
  | nil => exact ⟨fun _ _ ha => absurd ha List.not_mem_nil, fun _ => rfl⟩
  | cons a as ih =>
    have hcons : (a :: as).forM f = f a >>= fun _ => as.forM f := rfl
    rw [hcons, bind_eq_ok, List.forall_mem_cons, ← ih]
    exact ⟨fun ⟨_, ha, has⟩ => ⟨ha, has⟩, fun ⟨ha, has⟩ => ⟨(), ha, has⟩⟩

/-- An index passes if none of its sections imports anything. -/
theorem checkIndex_eq_ok {index : SectionIndex} :
    checkIndex index = .ok () ↔ ∀ s ∈ index.sections, ¬ s.hasImports := by
  unfold checkIndex
  split
  · next h => simpa using h
  · next h => simpa using h

/-- What is left besides the indexes are the declarations. -/
theorem filter_isSectionIndex (es : List Element) :
    (es.filter fun e => !e.isSectionIndex) = (Element.declarations es).map .declaration := by
  -- By induction on the elements.
  induction es with
  | nil => rfl
  | cons e es ih =>
    cases e with
    | declaration d =>
      rw [List.filter_cons_of_pos rfl, ih]
      rfl
    | sectionIndex index =>
      rw [List.filter_cons_of_neg Bool.false_ne_true, ih]
      rfl

/-- A parse is divided if no section of it imports anything, and its content are its declarations. -/
theorem partition_eq_ok {es : List Element} {parts : Partition} :
    partition es = .ok parts ↔
      (∀ index ∈ Element.sectionIndexes es, ∀ s ∈ index.sections, ¬ s.hasImports) ∧
        parts = ⟨Element.sectionIndexes es, (Element.declarations es).map .declaration⟩ := by
  unfold partition
  dsimp only
  rw [bind_eq_ok, filter_isSectionIndex]
  constructor
  · rintro ⟨_, himports, h⟩
    cases h
    exact ⟨fun index hindex => checkIndex_eq_ok.mp (forM_eq_ok.mp himports index hindex), rfl⟩
  · rintro ⟨himports, rfl⟩
    refine ⟨(), forM_eq_ok.mpr fun index hindex => ?_, rfl⟩
    exact checkIndex_eq_ok.mpr (himports index hindex)

/-! ### Entities of a text -/

/-- A text is read as the entity that its parse stands for. -/
theorem deserialize_eq_ok {format : Format} {text : String} {entity : Entity} :
    ((format.codec (m := Id)).deserialize text).run.run = .ok entity ↔
      ∃ es, parse text false = .ok es ∧ format.entityOf es = .ok entity := by
  rw [run_deserialize]
  cases parse text false with
  | error e => exact ⟨nofun, nofun⟩
  | ok es => exact ⟨fun h => ⟨es, rfl, h⟩, fun ⟨_, hes, h⟩ => Except.ok.inj hes ▸ h⟩

/-- **Reading many.** A text is read as the entities that its declarations stand for, if no section of
it imports anything. -/
theorem deserializeMany_eq_ok {format : Format} {text : String} {entities : List Entity} :
    ((format.codec (m := Id)).deserializeMany text).run.run = .ok entities ↔
      ∃ es, parse text false = .ok es ∧
        (∀ index ∈ Element.sectionIndexes es, ∀ s ∈ index.sections, ¬ s.hasImports) ∧
        List.Forall₂ (fun d entity => format.taxonomy.toEntity (.declaration d) = .ok entity)
          (Element.declarations es) entities := by
  rw [run_deserializeMany]
  cases parse text false with
  | error e => exact ⟨nofun, nofun⟩
  | ok es =>
    simp only [Except.ok.injEq, exists_eq_left']
    -- The declarations are converted one by one.
    have hmap : List.Forall₂ (fun d entity => format.taxonomy.toEntity (.declaration d) = .ok entity)
          (Element.declarations es) entities ↔
        ((Element.declarations es).map .declaration).mapM format.taxonomy.toEntity =
          .ok entities := by
      rw [mapM_eq_ok, List.forall₂_map_left_iff]
    rw [hmap]
    cases hpartition : partition es with
    | error e =>
      refine ⟨nofun, fun h => ?_⟩
      rw [partition_eq_ok.mpr ⟨h.1, rfl⟩] at hpartition
      cases hpartition
    | ok parts =>
      obtain ⟨himports, rfl⟩ := partition_eq_ok.mp hpartition
      exact ⟨fun h => ⟨himports, h⟩, fun h => h.2⟩

/-- Where there are only results, a probe tells whether the entity has a text. -/
theorem canSerialize_eq_true {format : Format} {entity : Entity} :
    ((format.codec (m := Id)).canSerialize entity).run = true ↔
      ∃ text, format.written entity = .ok text := by
  rw [← Format.writes_eq_true, run_canSerialize]
  exact Iff.rfl

/-! ### Entities that have been read -/

/-- A declaration that can be written can be composed alone. -/
theorem exists_compose_declaration (style : RenderStyle) {d : Declaration} (h : d.Writable) :
    ∃ text, compose style [.declaration d] = .ok text := by
  refine ⟨_, compose_eq_ok.mpr ⟨none, rfl, ⟨?_, ?_⟩, String.toList_ofList⟩⟩
  · exact List.forall_mem_singleton.mpr h
  · exact fun s hs => absurd hs List.not_mem_nil

namespace Format

/-- An entity that comes from a declaration which can be written has a text. -/
theorem exists_written_of_toEntity {format : Format} {d : Declaration} {entity : Entity}
    (hd : d.Writable) (hsource : d.source = none)
    (h : format.taxonomy.toEntity (.declaration d) = .ok entity) :
    ∃ text, format.written entity = .ok text := by
  obtain ⟨text, htext⟩ := exists_compose_declaration format.style hd
  have hfrom := Taxonomy.fromEntity_toEntity hd.path hsource h
  exact ⟨text, written_eq_ok.mpr ⟨.declaration d, hfrom, htext⟩⟩

/-- The one entity that a parse stands for comes from a declaration of the parse. -/
theorem exists_declaration_of_entityOf {format : Format} {es : List Element} {entity : Entity}
    (h : format.entityOf es = .ok entity) :
    ∃ d ∈ Element.declarations es, format.taxonomy.toEntity (.declaration d) = .ok entity := by
  obtain ⟨element, hclassify, hentity⟩ := bind_eq_ok.mp h
  cases element with
  | sectionIndex index => cases hentity
  | declaration d =>
    exact ⟨d, List.mem_filterMap.mpr ⟨_, mem_of_classify hclassify, rfl⟩, hentity⟩

/-- An entity that is read alone or among others comes from a declaration of the text. -/
theorem exists_written_of_read {format : Format} {text : String} {entity : Entity}
    (h : ((format.codec (m := Id)).deserialize text).run.run = .ok entity ∨
      ∃ entities, ((format.codec (m := Id)).deserializeMany text).run.run = .ok entities ∧
        entity ∈ entities) : ∃ text', format.written entity = .ok text' := by
  -- Either way the entity comes from a declaration that the grammar has read, and such a one can be
  -- written.
  have hdeclaration : ∃ es d, parse text false = .ok es ∧ d ∈ Element.declarations es ∧
      format.taxonomy.toEntity (.declaration d) = .ok entity := by
    rcases h with h | ⟨entities, h, hmem⟩
    · obtain ⟨es, hparse, hentity⟩ := deserialize_eq_ok.mp h
      obtain ⟨d, hd, htake⟩ := exists_declaration_of_entityOf hentity
      exact ⟨es, d, hparse, hd, htake⟩
    · obtain ⟨es, hparse, -, htake⟩ := deserializeMany_eq_ok.mp h
      obtain ⟨d, hd, hentity⟩ := exists_of_forall₂ htake hmem
      exact ⟨es, d, hparse, hd, hentity⟩
  obtain ⟨es, d, hparse, hd, hentity⟩ := hdeclaration
  obtain ⟨hwritable, hsource⟩ := writable_of_parse hparse d hd
  exact exists_written_of_toEntity hwritable hsource hentity

end Format

/-- **What is read can be written.** Every entity that the codec of a format reads from a text, as the
only one or as one of many, passes the probe, and it is written as a text that is read as the entity
again. -/
theorem read_can_be_written (format : Format) (text : String) (entity : Entity)
    (h : ((format.codec (m := Id)).deserialize text).run.run = .ok entity ∨
      ∃ entities, ((format.codec (m := Id)).deserializeMany text).run.run = .ok entities ∧
        entity ∈ entities) :
    ((format.codec (m := Id)).canSerialize entity).run = true ∧
      ∃ text', ((format.codec (m := Id)).serialize entity).run.run = .ok text' ∧
        ((format.codec (m := Id)).deserialize text').run.run = .ok entity := by
  obtain ⟨text', hwritten⟩ := Format.exists_written_of_read h
  refine ⟨canSerialize_eq_true.mpr ⟨text', hwritten⟩, text', serialize_eq_ok.mpr hwritten, ?_⟩
  -- The text that is written is read back whatever it was read from.
  rw [run_deserialize_of_written hwritten]
  rfl

/-- The second of two declarations, under a header and behind a comment. -/
theorem read_can_be_written_second :
    let text := "###data\nData a::B\x7b\x7d/**/Data\na::C \x7b\"x\": \"//\" \x7d"
    let content := ((Json.Object.empty.insertString "_type" "dataElement").insertString
      "package" "a").insertString "name" "B"
    let content' := (((Json.Object.empty.insertString "_type" "dataElement").insertString
      "package" "a").insertString "name" "C").insertString "x" "//"
    let entity : Entity := ⟨"a::C", "meta::pure::data::DataElement", content'⟩
    ((Format.standard.codec (m := Id)).deserializeMany text).run.run =
        .ok [⟨"a::B", "meta::pure::data::DataElement", content⟩, entity] ∧
      ((Format.standard.codec (m := Id)).canSerialize entity).run = true ∧
        ∃ text', ((Format.standard.codec (m := Id)).serialize entity).run.run = .ok text' ∧
          ((Format.standard.codec (m := Id)).deserialize text').run.run = .ok entity := by
  intro text content content' entity
  have h : ((Format.standard.codec (m := Id)).deserializeMany text).run.run =
      .ok [⟨"a::B", "meta::pure::data::DataElement", content⟩, entity] := by
    simp only [text, entity, content, content']
    cbv
  have hmem : entity ∈ [⟨"a::B", "meta::pure::data::DataElement", content⟩, entity] :=
    List.mem_cons_of_mem _ (List.mem_singleton_self _)
  exact ⟨h, read_can_be_written Format.standard text entity (.inr ⟨_, h, hmem⟩)⟩

end ModelText
