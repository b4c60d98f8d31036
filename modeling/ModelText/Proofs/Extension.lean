import ModelText.Proofs.Content

/-!
# Extending taxonomies

A taxonomy grows at its end, mapping by mapping, and each mapping is looked at before it is taken. All
of them are taken exactly if the whole list is consistent, and then the list is what the taxonomy has
become (`Taxonomy.extend_eq_ok`). How the mappings are divided among several extensions makes no
difference (`Taxonomy.foldlM_extend`).

The old mappings stay in front of the new ones, so a look-up that found one of them finds it still. What
could be converted is converted as before (`Taxonomy.fromEntity_of_isPrefix`,
`Taxonomy.toEntity_of_isPrefix`), and a text that could be read is read as the same entities
(`extension_is_conservative`).
-/

namespace ModelText

open Json.Reader (bind_eq_ok)
open ClassifierMapping (Consistent)

/-! ### Consistent lists -/

namespace ClassifierMapping

variable {ms ns : List ClassifierMapping}

/-- A list at the front of a consistent one is consistent. -/
theorem Consistent.of_append (h : Consistent (ms ++ ns)) : Consistent ms := by
  obtain ⟨hnames, hclassifiers, hkinds⟩ := h
  rw [List.map_append] at hclassifiers hkinds
  refine ⟨fun m hm => hnames m (List.mem_append_left ns hm), ?_, ?_⟩
  · exact hclassifiers.of_append_left
  · exact hkinds.of_append_left

/-- A mapping can come after a consistent list if both its names can be written and neither of them
stands in the list. -/
theorem consistent_concat_iff (h : Consistent ms) {m : ClassifierMapping} :
    Consistent (ms ++ [m]) ↔
      Path.isValid m.classifierPath ∧ Path.isIdentifier m.elementKind ∧
        m.classifierPath ∉ ms.map (·.classifierPath) ∧ m.elementKind ∉ ms.map (·.elementKind) := by
  -- That both names are new is what having no duplicates says of the last mapping.
  constructor
  · rintro ⟨hnames, hclassifiers, hkinds⟩
    obtain ⟨hclassifier, hkind⟩ := hnames m (List.mem_append_right ms (List.mem_singleton_self m))
    rw [List.map_append, List.map_singleton, ← List.concat_eq_append, List.nodup_concat]
      at hclassifiers hkinds
    exact ⟨hclassifier, hkind, hclassifiers.1, hkinds.1⟩
  · rintro ⟨hclassifier, hkind, hclassifiers, hkinds⟩
    exact Taxonomy.consistent_append_singleton h hclassifier hkind hclassifiers hkinds

/-- Nothing is asked of the type tags. -/
theorem Consistent.retag (h : Consistent ms) (tag : ClassifierMapping → String) :
    Consistent (ms.map fun m => { m with typeTag := tag m }) := by
  obtain ⟨hnames, hclassifiers, hkinds⟩ := h
  refine ⟨?_, ?_, ?_⟩
  · rw [List.forall_mem_map]
    exact hnames
  · rw [List.map_map]
    exact hclassifiers
  · rw [List.map_map]
    exact hkinds

end ClassifierMapping

namespace Taxonomy

/-! ### Steps and runs -/

theorem eq_of_mappings {t t' : Taxonomy} (h : t.mappings = t'.mappings) : t = t' := by
  cases t
  cases t'
  cases h
  rfl

/-- **A step.** A mapping is taken exactly if it leaves the list consistent, and then it is the last. -/
theorem add_eq_ok {t t' : Taxonomy} {m : ClassifierMapping} :
    t.add m = .ok t' ↔
      Consistent (t.mappings ++ [m]) ∧ t'.mappings = t.mappings ++ [m] := by
  rw [ClassifierMapping.consistent_concat_iff t.consistent]
  unfold add
  -- The four checks, one after another. Whichever fails is one of the four conditions.
  by_cases hclassifier : Path.isValid m.classifierPath
  · rw [dif_pos hclassifier]
    by_cases hkind : Path.isIdentifier m.elementKind
    · rw [dif_pos hkind]
      by_cases hclassifiers : m.classifierPath ∈ t.mappings.map (·.classifierPath)
      · rw [dif_pos hclassifiers]
        exact ⟨nofun, fun h => absurd hclassifiers h.1.2.2.1⟩
      · rw [dif_neg hclassifiers]
        by_cases hkinds : m.elementKind ∈ t.mappings.map (·.elementKind)
        · rw [dif_pos hkinds]
          exact ⟨nofun, fun h => absurd hkinds h.1.2.2.2⟩
        · rw [dif_neg hkinds]
          constructor
          · intro h
            cases h
            exact ⟨⟨hclassifier, hkind, hclassifiers, hkinds⟩, rfl⟩
          · rintro ⟨-, h⟩
            exact congrArg Except.ok (eq_of_mappings h.symm)
    · rw [dif_neg hkind]
      exact ⟨nofun, fun h => absurd h.1.2.1 hkind⟩
  · rw [dif_neg hclassifier]
    exact ⟨nofun, fun h => absurd h.1.1 hclassifier⟩

/-- **A run.** Mappings are taken exactly if the list with all of them is consistent, and then it is the
list that comes out. -/
theorem extend_eq_ok {t t' : Taxonomy} {ms : List ClassifierMapping} :
    t.extend ms = .ok t' ↔ Consistent (t.mappings ++ ms) ∧ t'.mappings = t.mappings ++ ms := by
  -- By induction on the new mappings, for any old ones, since each new one becomes an old one.
  induction ms generalizing t with
  | nil =>
    rw [extend, List.append_nil]
    constructor
    · intro h
      obtain rfl := Except.ok.inj h
      exact ⟨t.consistent, rfl⟩
    · rintro ⟨-, h⟩
      exact congrArg Except.ok (eq_of_mappings h.symm)
  | cons m ms ih =>
    have hsplit : t.mappings ++ m :: ms = (t.mappings ++ [m]) ++ ms := by simp
    rw [extend, bind_eq_ok, hsplit]
    constructor
    · rintro ⟨s, hadd, hextend⟩
      obtain ⟨-, hs⟩ := add_eq_ok.mp hadd
      rw [ih, hs] at hextend
      exact hextend
    · rintro ⟨hconsistent, hmappings⟩
      have hstep : Consistent (t.mappings ++ [m]) := hconsistent.of_append
      exact ⟨⟨_, hstep⟩, add_eq_ok.mpr ⟨hstep, rfl⟩, ih.mpr ⟨hconsistent, hmappings⟩⟩

/-- So a taxonomy can be extended just by mappings that keep it consistent. -/
theorem exists_extend_iff {t : Taxonomy} {ms : List ClassifierMapping} :
    (∃ t', t.extend ms = .ok t') ↔ Consistent (t.mappings ++ ms) := by
  constructor
  · rintro ⟨t', h⟩
    exact (extend_eq_ok.mp h).1
  · intro h
    exact ⟨⟨_, h⟩, extend_eq_ok.mpr ⟨h, rfl⟩⟩

/-- A taxonomy is extended by two lists as by one after the other. -/
theorem extend_append (t : Taxonomy) (ms ns : List ClassifierMapping) :
    t.extend (ms ++ ns) = (do
      let s ← t.extend ms
      s.extend ns) := by
  -- By induction on the first list.
  induction ms generalizing t with
  | nil => rfl
  | cons m ms ih =>
    rw [List.cons_append, extend, extend]
    cases t.add m with
    | error e => rfl
    | ok s => exact ih s

/-- **Runs in a row.** Any number of extensions is one extension by all their mappings. -/
theorem foldlM_extend (t : Taxonomy) (calls : List (List ClassifierMapping)) :
    calls.foldlM extend t = t.extend calls.flatten := by
  -- By induction on the extensions.
  induction calls generalizing t with
  | nil => rfl
  | cons ms calls ih =>
    rw [List.foldlM_cons, List.flatten_cons, extend_append]
    exact bind_congr ih

/-! ### Look-up in an extension -/

section Prefix

variable {t t' : Taxonomy} (h : t.mappings <+: t'.mappings)

include h

theorem byClassifier_of_isPrefix {classifierPath : String} {m : ClassifierMapping}
    (hm : t.byClassifier classifierPath = some m) : t'.byClassifier classifierPath = some m :=
  h.find?_eq_some hm

theorem byKind_of_isPrefix {elementKind : String} {m : ClassifierMapping}
    (hm : t.byKind elementKind = some m) : t'.byKind elementKind = some m :=
  h.find?_eq_some hm

/-- An entity of a classifier that was supported is converted as before, or refused as before. -/
theorem fromEntity_of_isPrefix {entity : Entity} (hsupports : t.supports entity.classifierPath) :
    t'.fromEntity entity = t.fromEntity entity := by
  obtain ⟨m, hm⟩ := Option.isSome_iff_exists.mp hsupports
  -- Both look up the same mapping, and the rest does not look at the taxonomy.
  unfold fromEntity
  rw [hm, byClassifier_of_isPrefix h hm]

/-- A declaration of a kind that was known is converted as before, or refused as before. -/
theorem toEntity_of_isPrefix {d : Declaration} (hkind : (t.byKind d.kind).isSome) :
    t'.toEntity (.declaration d) = t.toEntity (.declaration d) := by
  obtain ⟨m, hm⟩ := Option.isSome_iff_exists.mp hkind
  unfold toEntity
  dsimp only
  rw [hm, byKind_of_isPrefix h hm]

/-- What stood for an entity stands for it still. -/
theorem toEntity_eq_ok_of_isPrefix {element : Element} {entity : Entity}
    (hentity : t.toEntity element = .ok entity) : t'.toEntity element = .ok entity := by
  cases element with
  | sectionIndex index => cases hentity
  | declaration d =>
    obtain ⟨m, hm, -⟩ := toEntity_declaration_eq_ok.mp hentity
    rw [toEntity_of_isPrefix h (Option.isSome_of_mem hm), hentity]

end Prefix

end Taxonomy

/-! ### Reading under an extension -/

section Formats

variable {format format' : Format} (h : format.taxonomy.mappings <+: format'.taxonomy.mappings)
  {text : String}

include h

theorem deserialize_of_isPrefix {entity : Entity}
    (hread : ((format.codec (m := Id)).deserialize text).run.run = .ok entity) :
    ((format'.codec (m := Id)).deserialize text).run.run = .ok entity := by
  obtain ⟨es, hparse, hentity⟩ := deserialize_eq_ok.mp hread
  obtain ⟨element, hclassify, hconvert⟩ := bind_eq_ok.mp hentity
  -- What is selected does not depend on the taxonomy; only converting it does.
  refine deserialize_eq_ok.mpr ⟨es, hparse, bind_eq_ok.mpr ⟨element, hclassify, ?_⟩⟩
  exact Taxonomy.toEntity_eq_ok_of_isPrefix h hconvert

theorem deserializeMany_of_isPrefix {entities : List Entity}
    (hread : ((format.codec (m := Id)).deserializeMany text).run.run = .ok entities) :
    ((format'.codec (m := Id)).deserializeMany text).run.run = .ok entities := by
  obtain ⟨es, hparse, himports, hentities⟩ := deserializeMany_eq_ok.mp hread
  refine deserializeMany_eq_ok.mpr ⟨es, hparse, himports, hentities.imp fun d entity hconvert => ?_⟩
  exact Taxonomy.toEntity_eq_ok_of_isPrefix h hconvert

end Formats

/-- **Taxonomies stay consistent, and extending them is conservative.** Take the built-in taxonomy or one
of given mappings, and extend it any number of times. It then has all the mappings in order, each of them
is found by its classifier and by its kind, and it can be extended further exactly if the whole list stays
consistent. An extension converts all that was supported or known as before, and every text that has been
read as entities is read as the same entities. -/
theorem extension_is_conservative {start t : Taxonomy} {given : List ClassifierMapping}
    {calls : List (List ClassifierMapping)}
    (hstart : start = .standard ∧ given = Taxonomy.standardMappings ∨
      Taxonomy.empty.extend given = .ok start)
    (hcalls : calls.foldlM Taxonomy.extend start = .ok t) :
    t.mappings = given ++ calls.flatten ∧
    ((∀ m ∈ t.mappings, Path.isValid m.classifierPath ∧ Path.isIdentifier m.elementKind) ∧
      (t.mappings.map (·.classifierPath)).Nodup ∧ (t.mappings.map (·.elementKind)).Nodup) ∧
    (∀ m ∈ t.mappings,
      t.byClassifier m.classifierPath = some m ∧ t.byKind m.elementKind = some m) ∧
    (∀ extra, (∃ t', t.extend extra = .ok t') ↔ Consistent (t.mappings ++ extra)) ∧
    ∀ extra t', t.extend extra = .ok t' →
      t'.mappings = t.mappings ++ extra ∧
      (∀ entity, t.supports entity.classifierPath → t'.fromEntity entity = t.fromEntity entity) ∧
      (∀ d, (t.byKind d.kind).isSome →
        t'.toEntity (.declaration d) = t.toEntity (.declaration d)) ∧
      ∀ format format' : Format, format.taxonomy = t → format'.taxonomy = t' → ∀ text,
        (∀ entity, ((format.codec (m := Id)).deserialize text).run.run = .ok entity →
          ((format'.codec (m := Id)).deserialize text).run.run = .ok entity) ∧
        ∀ entities, ((format.codec (m := Id)).deserializeMany text).run.run = .ok entities →
          ((format'.codec (m := Id)).deserializeMany text).run.run = .ok entities := by
  -- However the first taxonomy has come about, it has just the given mappings.
  have hgiven : start.mappings = given := by
    rcases hstart with ⟨rfl, rfl⟩ | hempty
    · rfl
    · exact (Taxonomy.extend_eq_ok.mp hempty).2
  rw [Taxonomy.foldlM_extend] at hcalls
  obtain ⟨hconsistent, hmappings⟩ := Taxonomy.extend_eq_ok.mp hcalls
  rw [← hmappings] at hconsistent
  refine ⟨hgiven ▸ hmappings, hconsistent, fun m hm => ⟨?_, ?_⟩,
    fun extra => Taxonomy.exists_extend_iff, fun extra t' hextend => ?_⟩
  · exact Taxonomy.find?_key_eq_some ClassifierMapping.classifierPath hconsistent.2.1 hm
  · exact Taxonomy.find?_key_eq_some ClassifierMapping.elementKind hconsistent.2.2 hm
  · obtain ⟨-, hmappings'⟩ := Taxonomy.extend_eq_ok.mp hextend
    have hbegins : t.mappings <+: t'.mappings := ⟨extra, hmappings'.symm⟩
    refine ⟨hmappings', fun entity => Taxonomy.fromEntity_of_isPrefix hbegins,
      fun d => Taxonomy.toEntity_of_isPrefix hbegins, ?_⟩
    rintro format format' rfl rfl text
    exact ⟨fun entity => deserialize_of_isPrefix hbegins,
      fun entities => deserializeMany_of_isPrefix hbegins⟩

/-- Two extensions whose mappings share a type tag, the first of them with a kind that is spelled like the
keyword of imports, and a third extension under which a text of that kind is read as before. -/
theorem extension_is_conservative_import :
    let imported : ClassifierMapping := ⟨"x::Import", "import", "thing"⟩
    let calls : List (List ClassifierMapping) := [[imported], [⟨"x::Other", "Other", "thing"⟩]]
    let extra : List ClassifierMapping := [⟨"y::Other", "other", "thing"⟩]
    let text := "###data\nimport a::B\x7b\x7d"
    let entity : Entity := ⟨"a::B", "x::Import",
      ((Json.Object.empty.insertString "_type" "thing").insertString "package" "a"
        ).insertString "name" "B"⟩
    ∃ t t', calls.foldlM Taxonomy.extend .standard = .ok t ∧ t.extend extra = .ok t' ∧
      t.mappings = Taxonomy.standardMappings ++ calls.flatten ∧
      t'.mappings = t.mappings ++ extra ∧
      t.byClassifier "x::Import" = some imported ∧ t.byKind "import" = some imported ∧
      (¬ ∃ t'', t.extend [imported] = .ok t'') ∧
      t'.fromEntity entity = t.fromEntity entity ∧
      ((Format.codec (m := Id) ⟨"pure", "pure", .pretty, t⟩).deserialize text).run.run =
        .ok entity ∧
      ((Format.codec (m := Id) ⟨"pure", "pure", .standard, t'⟩).deserialize text).run.run =
        .ok entity := by
  intro imported calls extra text entity
  have hconsistent' : Consistent ((Taxonomy.standardMappings ++ calls.flatten) ++ extra) := by
    decide +kernel
  have hconsistent : Consistent (Taxonomy.standardMappings ++ calls.flatten) := hconsistent'.of_append
  have hrepeated : ¬ Consistent ((Taxonomy.standardMappings ++ calls.flatten) ++ [imported]) :=
    fun h => absurd h.2.1 (by decide)
  have hmem : imported ∈ Taxonomy.standardMappings ++ calls.flatten := by decide
  have hcalls : calls.foldlM Taxonomy.extend .standard =
      .ok ⟨Taxonomy.standardMappings ++ calls.flatten, hconsistent⟩ := by
    rw [Taxonomy.foldlM_extend]
    exact Taxonomy.extend_eq_ok.mpr ⟨hconsistent, rfl⟩
  have hextra : Taxonomy.extend ⟨Taxonomy.standardMappings ++ calls.flatten, hconsistent⟩ extra =
      .ok ⟨(Taxonomy.standardMappings ++ calls.flatten) ++ extra, hconsistent'⟩ :=
    Taxonomy.extend_eq_ok.mpr ⟨hconsistent', rfl⟩
  have hread : ((Format.codec (m := Id) ⟨"pure", "pure", .pretty,
      ⟨Taxonomy.standardMappings ++ calls.flatten, hconsistent⟩⟩).deserialize text).run.run =
        .ok entity := by
    simp only [text, entity, calls, imported]
    cbv
  obtain ⟨hmappings, -, hfound, hfits, hconservative⟩ :=
    extension_is_conservative (.inl ⟨rfl, rfl⟩) hcalls
  obtain ⟨hmappings', hfrom, -, htexts⟩ := hconservative extra _ hextra
  obtain ⟨hclassifier, hkind⟩ := hfound imported hmem
  refine ⟨_, _, hcalls, hextra, hmappings, hmappings', hclassifier, hkind, ?_, ?_, hread, ?_⟩
  · rwa [hfits]
  · exact hfrom entity (Option.isSome_of_mem hclassifier)
  · exact (htexts _ _ rfl rfl text).1 entity hread

end ModelText
