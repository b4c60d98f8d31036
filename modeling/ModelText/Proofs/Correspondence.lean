import ModelText.Proofs.Extension

/-!
# Entities correspond to declarations

A taxonomy converts entities by the mapping of their classifier and declarations by the mapping of their
kind. As each of the two names determines the other, the two conversions undo each other: an entity is
taken to a declaration exactly if the declaration has a valid path and no position and is taken to the
entity (`Taxonomy.fromEntity_eq_ok_declaration`). All that passes between the two beside the identity is
carried over as it is, and the type tags may repeat (`Taxonomy.conversion_is_reversible`).
-/

namespace ModelText.Taxonomy

open Json (Object)

variable {t : Taxonomy} {d : Declaration} {entity : Entity}

/-- A declaration stands for the same entity wherever it is. -/
theorem toEntity_withoutSource (t : Taxonomy) (d : Declaration) :
    t.toEntity (.declaration d.withoutSource) = t.toEntity (.declaration d) := rfl

/-- The entity of a declaration is taken to the declaration, without its position. -/
theorem fromEntity_of_toEntity (hpath : Path.isValid d.path)
    (h : t.toEntity (.declaration d) = .ok entity) :
    t.fromEntity entity = .ok (.declaration d.withoutSource) := by
  rw [← toEntity_withoutSource] at h
  exact fromEntity_toEntity hpath rfl h

/-- **Correspondence.** The declarations that stand for entities are those with a valid path and without
a position that are taken to entities. -/
theorem fromEntity_eq_ok_declaration :
    t.fromEntity entity = .ok (.declaration d) ↔
      Path.isValid d.path ∧ d.source = none ∧ t.toEntity (.declaration d) = .ok entity := by
  constructor
  · intro h
    obtain ⟨m, -, hidentified, hd⟩ := fromEntity_eq_ok.mp h
    have hentity := toEntity_fromEntity h
    cases hd
    exact ⟨hidentified.path, rfl, hentity⟩
  · rintro ⟨hpath, hsource, h⟩
    exact fromEntity_toEntity hpath hsource h

/-- What an entity has beside its identity is what the body of the declaration has. -/
theorem find?_of_toEntity (h : t.toEntity (.declaration d) = .ok entity) {name : String}
    (hname : name ∉ identityKeys) : entity.content.find? name = d.body.find? name := by
  obtain ⟨m, -, -, rfl⟩ := toEntity_declaration_eq_ok.mp h
  -- The member is none of the three that are put in, so it is the one of the body.
  have hkeys : ∀ key ∈ identityKeys, key ≠ name := fun key hkey heq => hname (heq ▸ hkey)
  simp only [identityKeys, List.forall_mem_cons] at hkeys
  obtain ⟨htype, hpackage, hnameKey, -⟩ := hkeys
  rw [find?_contentOf, if_neg hnameKey, if_neg hpackage, if_neg htype, Option.or_none]

/-- **Conversion is reversible.** In any taxonomy, the declaration that stands for an entity is taken back
to it, and the entity that a declaration with a valid path is taken to is taken back to the declaration,
without its position. All members beside the identity are carried over as they are, and the identity is
not among them in the body. No type tag has to be the only one of its kind: with any other tags the
mappings are a taxonomy just as well. -/
theorem conversion_is_reversible (t : Taxonomy) :
    (∀ entity element, t.fromEntity entity = .ok element → t.toEntity element = .ok entity) ∧
    (∀ d entity, Path.isValid d.path → t.toEntity (.declaration d) = .ok entity →
      t.fromEntity entity = .ok (.declaration d.withoutSource)) ∧
    (∀ entity element, t.fromEntity entity = .ok element →
      ∃ d, element = .declaration d ∧ Path.isValid d.path ∧ d.source = none) ∧
    (∀ entity d,
      t.fromEntity entity = .ok (.declaration d) ∨ t.toEntity (.declaration d) = .ok entity →
        (∀ name ∈ identityKeys, d.body.find? name = none) ∧
        ∀ name ∉ identityKeys, entity.content.find? name = d.body.find? name) ∧
    ∀ tag : ClassifierMapping → String,
      ∃ t', empty.extend (t.mappings.map fun m => { m with typeTag := tag m }) = .ok t' := by
  refine ⟨fun entity element => toEntity_fromEntity, fun d entity => fromEntity_of_toEntity, ?_, ?_, ?_⟩
  · intro entity element h
    obtain ⟨m, -, hidentified, rfl⟩ := fromEntity_eq_ok.mp h
    exact ⟨_, rfl, hidentified.path, rfl⟩
  · intro entity d h
    -- Whichever of the two is given, the declaration stands for the entity.
    have hentity : t.toEntity (.declaration d) = .ok entity := h.elim toEntity_fromEntity id
    obtain ⟨m, -, hanonymous, -⟩ := toEntity_declaration_eq_ok.mp hentity
    exact ⟨hanonymous, fun name => find?_of_toEntity hentity⟩
  · intro tag
    exact exists_extend_iff.mpr (t.consistent.retag tag)

/-- Two classifiers with one type tag, and an entity of the second of them that is converted there and
back, from a declaration that has a position. -/
theorem conversion_is_reversible_shared_tag :
    let t : Taxonomy := ⟨[⟨"x::A", "A", "thing"⟩, ⟨"x::B", "B", "thing"⟩], by decide⟩
    let content := (((Object.empty.insertString "_type" "thing").insertString "package" "p::q"
      ).insertString "name" "C").insertString "extra" "_type"
    let entity : Entity := ⟨"p::q::C", "x::B", content⟩
    let d : Declaration :=
      { kind := "B", path := "p::q::C", body := Object.empty.insertString "extra" "_type",
        source := some ⟨⟨1, 1⟩, ⟨1, 9⟩⟩ }
    Path.isValid d.path ∧ t.toEntity (.declaration d) = .ok entity ∧
      t.fromEntity entity = .ok (.declaration d.withoutSource) ∧
      t.toEntity (.declaration d.withoutSource) = .ok entity ∧
      entity.content.find? "extra" = d.body.find? "extra" := by
  intro t content entity d
  have hpath : Path.isValid d.path := by decide
  have hentity : t.toEntity (.declaration d) = .ok entity := by
    simp only [t, d, entity, content]
    cbv
  obtain ⟨hback, hthere, -, hmembers, -⟩ := conversion_is_reversible t
  have hd := hthere d entity hpath hentity
  exact ⟨hpath, hentity, hd, hback entity _ hd, (hmembers entity d (.inr hentity)).2 _ (by decide)⟩

end ModelText.Taxonomy
