import ModelText.Proofs.Content

/-!
# Which entities can be written, and why others cannot

Writing an entity asks three things of it. Its classifier has a mapping, its content repeats the identity
that the mapping and the path give it, and no container of its content lies too deep. `Format.Serializes`
is the table of the answers: one for the first of these that fails, and the text if none does. The writer
gives just the answer of the one row that applies (`Format.written_eq_iff`), so each of its errors has one
cause (`serialize_fails_exactly`).

The grammar checks once more what it is given, kind, path and depth. A kind of a taxonomy is an identifier
and the path has been looked at before, so only the depth is left (`compose_of_tooDeep`). It is measured
on the body, which nests as deep as the whole content does, since the identity is made of strings
(`Taxonomy.Identified.depth_body`).
-/

namespace ModelText

open Grammar
open Json (Object)

/-! ### Depth of a content -/

/-- The depth of an object is bounded by what is found under its names. -/
theorem Json.Object.depth_le_iff {o : Object} {n : Nat} :
    o.toJson.depth ≤ n + 1 ↔ ∀ name j, o.find? name = some j → j.depth ≤ n := by
  rw [toJson, depth, Nat.add_le_add_iff_right, depthMembers_le_iff]
  -- The names are in order, so each member is found under its own.
  refine ⟨fun h name j hfind => ?_, fun h m hm => ?_⟩
  · exact h (name, j) ((findMember_eq_some_iff o.ordered.1).mp hfind)
  · exact h m.1 m.2 ((findMember_eq_some_iff o.ordered.1).mpr hm)

namespace Taxonomy

/-- The identity that is put into a body makes it no deeper. -/
theorem depth_contentOf (m : ClassifierMapping) (path : String) (body : Object) :
    (contentOf m path body).toJson.depth = body.toJson.depth := by
  have hle : ∀ n, (contentOf m path body).toJson.depth ≤ n + 1 ↔ body.toJson.depth ≤ n + 1 := by
    intro n
    rw [Json.Object.depth_le_iff, Json.Object.depth_le_iff]
    refine ⟨fun h name j hj => h name j ?_, fun h name j hj => ?_⟩
    · rw [find?_contentOf, hj]
      rfl
    · rw [find?_contentOf] at hj
      cases hbody : body.find? name with
      | some k =>
        rw [hbody] at hj
        cases hj
        exact h name _ hbody
      | none =>
        -- What is not in the body is a string of the identity.
        rw [hbody, Option.none_or] at hj
        split at hj
        · cases hj
          exact Nat.zero_le n
        · split at hj
          · cases hj
            exact Nat.zero_le n
          · split at hj
            · cases hj
              exact Nat.zero_le n
            · cases hj
  exact Nat.le_antisymm ((hle _).mpr (Nat.le_refl _)) ((hle _).mp (Nat.le_refl _))

/-- Nor does the identity that is taken out of a content make it deeper. -/
theorem Identified.depth_body {m : ClassifierMapping} {entity : Entity} (h : Identified m entity) :
    (withoutIdentity entity.content).toJson.depth = entity.content.toJson.depth := by
  rw [← depth_contentOf m entity.path, contentOf_withoutIdentity h]

/-! ### What is wrong with an identity -/

/-- What is wrong with a member that has to be a certain string. -/
inductive Disagrees (content : Object) (key expected : String) : ConversionCause → Prop
  | missing (h : content.find? key = none) : Disagrees content key expected (.missing key)
  | mismatch {actual : Json} (h : content.find? key = some actual) (hne : actual ≠ .string expected) :
      Disagrees content key expected (.mismatch key actual expected)

/-- A member is not taken out just where it disagrees with what is expected. -/
theorem takeExpected_eq_error {key expected : String} {body : Object} {cause : ConversionCause} :
    takeExpected key expected body = .error cause ↔ Disagrees body key expected cause := by
  unfold takeExpected
  constructor
  · intro h
    split at h
    · next hnone =>
      cases h
      exact .missing hnone
    · next actual hsome =>
      split at h
      · cases h
      · next hne =>
        cases h
        exact .mismatch hsome fun heq => hne (Json.string.inj heq)
    · next actual hne hsome =>
      cases h
      exact .mismatch hsome (hne expected)
  · -- Conversely, the member is missing, or is there and is not the text that is expected.
    rintro (hnone | ⟨hsome, hne⟩)
    · rw [hnone]
    · rw [hsome]
      split
      · cases ‹some _ = none›
      · next actual heq =>
        cases heq
        rw [if_neg fun heq => hne (congrArg Json.string heq)]
      · next heq =>
        cases heq
        rfl

/-- Only the member itself matters. -/
theorem Disagrees.of_find? {key expected : String} {body content : Object} {cause : ConversionCause}
    (h : Disagrees body key expected cause) (hfind : body.find? key = content.find? key) :
    Disagrees content key expected cause := by
  cases h with
  | missing h => exact .missing (hfind ▸ h)
  | mismatch h hne => exact .mismatch (hfind ▸ h) hne

/-- **The first that disagrees.** Taking out members one after another comes to grief at the first one
that is not what it has to be. -/
theorem foldlM_takeExpected_eq_error {ps : List (String × String)} (hkeys : (ps.map (·.1)).Nodup)
    {body : Object} {cause : ConversionCause} :
    ps.foldlM (fun body p => takeExpected p.1 p.2 body) body = .error cause ↔
      ∃ before p after, ps = before ++ p :: after ∧
        (∀ q ∈ before, body.find? q.1 = some (.string q.2)) ∧ Disagrees body p.1 p.2 cause := by
  -- By induction on the members. One that has been taken out is looked at no more, as no name repeats.
  induction ps generalizing body with
  | nil =>
    refine ⟨nofun, ?_⟩
    rintro ⟨before, p, after, hsplit, -⟩
    cases before <;> cases hsplit
  | cons p ps ih =>
    rw [List.map_cons, List.nodup_cons] at hkeys
    rw [List.foldlM_cons]
    cases htake : takeExpected p.1 p.2 body with
    | error e =>
      have hbad := takeExpected_eq_error.mp htake
      constructor
      · intro h
        cases h
        exact ⟨[], p, ps, rfl, nofun, hbad⟩
      · rintro ⟨before, q, after, hsplit, hbefore, hq⟩
        cases before with
        | nil =>
          cases hsplit
          rw [← takeExpected_eq_error, htake] at hq
          exact congrArg Except.error (Except.error.inj hq)
        | cons b before =>
          cases hsplit
          rw [takeExpected_eq_ok.mpr ⟨hbefore p List.mem_cons_self, rfl⟩] at htake
          cases htake
    | ok rest =>
      obtain ⟨hfind, rfl⟩ := takeExpected_eq_ok.mp htake
      have hother : ∀ q ∈ ps, (body.erase p.1).find? q.1 = body.find? q.1 := fun q hq => by
        rw [Object.find?_erase, if_neg]
        exact fun heq => hkeys.1 (heq ▸ List.mem_map_of_mem hq)
      refine (ih hkeys.2).trans ⟨?_, ?_⟩
      · rintro ⟨before, q, after, rfl, hbefore, hq⟩
        refine ⟨p :: before, q, after, rfl, List.forall_mem_cons.mpr ⟨hfind, fun r hr => ?_⟩, ?_⟩
        · rw [← hother r (List.mem_append_left _ hr)]
          exact hbefore r hr
        · exact hq.of_find? (hother q (List.mem_append_right _ List.mem_cons_self))
      · rintro ⟨before, q, after, hsplit, hbefore, hq⟩
        cases before with
        | nil =>
          cases hsplit
          rw [← takeExpected_eq_error, htake] at hq
          cases hq
        | cons b before =>
          cases hsplit
          refine ⟨before, q, after, rfl, fun r hr => ?_, ?_⟩
          · rw [hother r (List.mem_append_left _ hr)]
            exact hbefore r (List.mem_cons_of_mem _ hr)
          · exact hq.of_find? (hother q (List.mem_append_right _ List.mem_cons_self)).symm

/-- The members that repeat the identity and what they have to be, in the order in which they are looked
at. -/
def identityOf (m : ClassifierMapping) (path : String) : List (String × String) :=
  [(typeKey, m.typeTag), (packageKey, Path.package path), (nameKey, Path.name path)]

/-- What a mapping has to object to an entity of its classifier: an invalid path, or else the first member
of the identity that is not what it has to be. -/
inductive Objection (m : ClassifierMapping) (entity : Entity) : ConversionCause → Prop
  | path (h : ¬ Path.isValid entity.path) : Objection m entity .invalidEntityPath
  | identity {before after : List (String × String)} {key expected : String} {cause : ConversionCause}
      (hpath : Path.isValid entity.path)
      (hsplit : identityOf m entity.path = before ++ (key, expected) :: after)
      (hbefore : ∀ p ∈ before, entity.content.find? p.1 = some (.string p.2))
      (h : Disagrees entity.content key expected cause) : Objection m entity cause

/-- **Objections.** An entity that a mapping does not convert is refused for what the mapping objects to
it. -/
theorem bodyOf_eq_error {m : ClassifierMapping} {entity : Entity} {cause : ConversionCause} :
    bodyOf m entity = .error cause ↔ Objection m entity cause := by
  by_cases hpath : Path.isValid entity.path
  · have hfold : bodyOf m entity = (identityOf m entity.path).foldlM
        (fun body p => takeExpected p.1 p.2 body) entity.content := by
      unfold bodyOf
      rw [if_pos hpath]
      simp only [identityOf, List.foldlM_cons, List.foldlM_nil, bind_pure]
    -- The keys differ, so what is taken out for one does not matter to the next.
    have hkeys : ((identityOf m entity.path).map (·.1)).Nodup := by
      show identityKeys.Nodup
      decide
    rw [hfold, foldlM_takeExpected_eq_error hkeys]
    constructor
    · rintro ⟨before, p, after, hsplit, hbefore, hp⟩
      exact .identity hpath hsplit hbefore hp
    · rintro (h | ⟨-, hsplit, hbefore, hp⟩)
      · exact absurd hpath h
      · exact ⟨_, _, _, hsplit, hbefore, hp⟩
  · have hrefused : bodyOf m entity = .error .invalidEntityPath := if_neg hpath
    rw [hrefused]
    constructor
    · intro h
      cases h
      exact .path hpath
    · rintro (- | ⟨h, -, -, -⟩)
      · rfl
      · exact absurd h hpath

/-- There is something to object to an entity unless its identity is in order. -/
theorem exists_objection_iff {m : ClassifierMapping} {entity : Entity} :
    (∃ cause, Objection m entity cause) ↔ ¬ Identified m entity := by
  constructor
  · rintro ⟨cause, hobjection⟩ hidentified
    have herror := bodyOf_eq_error.mpr hobjection
    rw [bodyOf_eq_ok.mpr ⟨hidentified, rfl⟩] at herror
    cases herror
  · intro hidentified
    cases hbody : bodyOf m entity with
    | error cause => exact ⟨cause, bodyOf_eq_error.mp hbody⟩
    | ok body => exact absurd (bodyOf_eq_ok.mp hbody).1 hidentified

/-! ### Look-up of the mapping -/

/-- Looking a classifier up finds the mapping that has it; there is one at most. -/
theorem byClassifier_eq_some_iff {t : Taxonomy} {classifierPath : String} {m : ClassifierMapping} :
    t.byClassifier classifierPath = some m ↔ m ∈ t.mappings ∧ m.classifierPath = classifierPath := by
  refine ⟨byClassifier_eq_some, ?_⟩
  rintro ⟨hm, rfl⟩
  exact find?_key_eq_some ClassifierMapping.classifierPath t.consistent.2.1 hm

/-- It finds nothing if no mapping has it. -/
theorem byClassifier_eq_none_iff {t : Taxonomy} {classifierPath : String} :
    t.byClassifier classifierPath = none ↔ ∀ m ∈ t.mappings, m.classifierPath ≠ classifierPath := by
  unfold byClassifier
  simp only [List.find?_eq_none, beq_iff_eq, ne_eq]

/-- Two mappings of a taxonomy with the same classifier are the same. -/
theorem eq_of_classifierPath {t : Taxonomy} {m m' : ClassifierMapping} (hm : m ∈ t.mappings)
    (hm' : m' ∈ t.mappings) (h : m.classifierPath = m'.classifierPath) : m = m' :=
  List.inj_on_of_nodup_map t.consistent.2.1 hm hm' h

end Taxonomy

/-! ### Composing one declaration -/

namespace Grammar

/-- A declaration is composed alone as its own chunk. -/
theorem compose_declaration (style : RenderStyle) (d : Declaration) :
    compose style [.declaration d] =
      (renderDeclaration style d).map fun chunk => String.ofList (joinChunks [chunk]) := by
  have hmap : [d].mapM (renderDeclaration style) = (renderDeclaration style d).map fun w => [w] := by
    rw [List.mapM_cons, List.mapM_nil]
    cases renderDeclaration style d <;> rfl
  -- Without an index no section claims the declaration, so it is the only chunk.
  have hcompose : compose style [.declaration d] =
      [d].mapM (renderDeclaration style) >>= fun ws => .ok (String.ofList (joinChunks ws)) := rfl
  rw [hcompose, hmap]
  cases renderDeclaration style d <;> rfl

/-- Where the names of a declaration can be written, its depth is what is left to refuse it for. -/
theorem compose_of_tooDeep (style : RenderStyle) {d : Declaration} (hkind : Path.isIdentifier d.kind)
    (hpath : Path.isValid d.path) (hdepth : maxDepth < d.body.toJson.depth) :
    compose style [.declaration d] = .error (.compose (.bodyTooDeep d.path maxDepth)) := by
  have hexceeds : d.body.exceeds maxDepth = true := by
    rw [← Bool.not_eq_false, Json.Object.exceeds_eq_false_iff (by decide)]
    exact Nat.not_le.mpr hdepth
  have hrender : renderDeclaration style d = refuse (.bodyTooDeep d.path maxDepth) := by
    unfold renderDeclaration
    rw [hkind, hpath, hexceeds]
    rfl
  rw [compose_declaration, hrender]
  rfl

/-- If it can be written, as its own text. -/
theorem compose_of_writable (style : RenderStyle) {d : Declaration} (h : d.Writable) :
    compose style [.declaration d] = .ok (String.ofList (joinChunks [declarationText style d])) := by
  rw [compose_declaration, renderDeclaration_eq_ok.mpr ⟨h, rfl⟩]
  rfl

end Grammar

namespace Format

open Taxonomy (Objection Identified withoutIdentity)

/-- The declaration that stands for an entity of a mapping. -/
def declarationOf (m : ClassifierMapping) (entity : Entity) : Declaration :=
  { kind := m.elementKind, path := entity.path, body := withoutIdentity entity.content }

/-- The text of an entity, or why it has none. -/
inductive Serializes (format : Format) (entity : Entity) : Except CodecError String → Prop
  /-- No mapping has the classifier. -/
  | unsupported (h : ∀ m ∈ format.taxonomy.mappings, m.classifierPath ≠ entity.classifierPath) :
      Serializes format entity (.error (.unsupportedClassifier entity.classifierPath))
  /-- The mapping of the classifier objects. -/
  | conversion {m : ClassifierMapping} {cause : ConversionCause} (hm : m ∈ format.taxonomy.mappings)
      (hclassifier : m.classifierPath = entity.classifierPath) (h : Objection m entity cause) :
      Serializes format entity (.error (.conversion entity.path cause))
  /-- A container lies too deep. -/
  | depth {m : ClassifierMapping} (hm : m ∈ format.taxonomy.mappings)
      (hclassifier : m.classifierPath = entity.classifierPath) (hidentified : Identified m entity)
      (h : maxDepth < entity.content.toJson.depth) :
      Serializes format entity (.error (.composeFailure (.compose (.bodyTooDeep entity.path maxDepth))))
  /-- Nothing is wrong with the entity. -/
  | text {m : ClassifierMapping} (hm : m ∈ format.taxonomy.mappings)
      (hclassifier : m.classifierPath = entity.classifierPath) (hidentified : Identified m entity)
      (h : entity.content.toJson.depth ≤ maxDepth) :
      Serializes format entity
        (.ok (String.ofList (joinChunks [declarationText format.style (declarationOf m entity)])))

variable {format : Format} {entity : Entity}

/-- **Every entity has a row**: the tests are made one after another, and the first that fails decides. -/
theorem exists_serializes (format : Format) (entity : Entity) :
    ∃ answer, format.Serializes entity answer := by
  -- The look-up, the identity and the depth, in the order in which the codec comes to them.
  cases hfound : format.taxonomy.byClassifier entity.classifierPath with
  | none => exact ⟨_, .unsupported (Taxonomy.byClassifier_eq_none_iff.mp hfound)⟩
  | some m =>
    obtain ⟨hm, hclassifier⟩ := Taxonomy.byClassifier_eq_some hfound
    cases hbody : Taxonomy.bodyOf m entity with
    | error cause => exact ⟨_, .conversion hm hclassifier (Taxonomy.bodyOf_eq_error.mp hbody)⟩
    | ok body =>
      obtain ⟨hidentified, -⟩ := Taxonomy.bodyOf_eq_ok.mp hbody
      rcases Nat.lt_or_ge maxDepth entity.content.toJson.depth with hdeep | hdepth
      · exact ⟨_, .depth hm hclassifier hidentified hdeep⟩
      · exact ⟨_, .text hm hclassifier hidentified hdepth⟩

/-- The declaration of an entity whose identity has been found in order. -/
theorem written_of_identified {m : ClassifierMapping} (hm : m ∈ format.taxonomy.mappings)
    (hclassifier : m.classifierPath = entity.classifierPath) (h : Identified m entity) :
    format.written entity =
      (compose format.style [.declaration (declarationOf m entity)]).mapError .composeFailure := by
  refine written_of_ok (Taxonomy.fromEntity_eq_ok.mpr ⟨m, ?_, h, rfl⟩)
  exact Taxonomy.byClassifier_eq_some_iff.mpr ⟨hm, hclassifier⟩

/-- The row is what the codec answers. -/
theorem Serializes.written_eq {answer : Except CodecError String}
    (h : format.Serializes entity answer) : format.written entity = answer := by
  cases h with
  | unsupported h =>
    refine written_of_error ?_
    unfold Taxonomy.fromEntity
    rw [Taxonomy.byClassifier_eq_none_iff.mpr h]
  | conversion hm hclassifier h =>
    refine written_of_error ?_
    unfold Taxonomy.fromEntity
    rw [Taxonomy.byClassifier_eq_some_iff.mpr ⟨hm, hclassifier⟩]
    dsimp only
    rw [Taxonomy.bodyOf_eq_error.mpr h]
  | @depth m hm hclassifier hidentified h =>
    -- The names pass the grammar, one by the taxonomy and the other by the conversion.
    rw [written_of_identified hm hclassifier hidentified, compose_of_tooDeep]
    · rfl
    · exact (format.taxonomy.consistent.1 m hm).2
    · exact hidentified.path
    · rwa [declarationOf, hidentified.depth_body]
  | @text m hm hclassifier hidentified h =>
    rw [written_of_identified hm hclassifier hidentified, compose_of_writable]
    · rfl
    · refine ⟨(format.taxonomy.consistent.1 m hm).2, hidentified.path, ?_⟩
      rwa [declarationOf, hidentified.depth_body]

/-- **The table.** An answer is given exactly if its row applies. -/
theorem written_eq_iff {answer : Except CodecError String} :
    format.written entity = answer ↔ format.Serializes entity answer := by
  refine ⟨fun h => ?_, Serializes.written_eq⟩
  obtain ⟨answer', hrow⟩ := exists_serializes format entity
  rwa [← h, hrow.written_eq]

/-! ### The rows of an entity -/

/-- Each sort of answer belongs to one row, and so to its condition. -/
theorem serializes_unsupportedClassifier_iff :
    (∃ path, format.Serializes entity (.error (.unsupportedClassifier path))) ↔
      ∀ m ∈ format.taxonomy.mappings, m.classifierPath ≠ entity.classifierPath := by
  refine ⟨?_, fun h => ⟨_, .unsupported h⟩⟩
  rintro ⟨path, hrow⟩
  cases hrow with
  | unsupported h => exact h

/-- There is no fourth reason to refuse an entity. -/
theorem Serializes.error_eq {error : CodecError} (h : format.Serializes entity (.error error)) :
    error = .unsupportedClassifier entity.classifierPath ∨
      (∃ m ∈ format.taxonomy.mappings, m.classifierPath = entity.classifierPath ∧
        ∃ cause, Objection m entity cause ∧ error = .conversion entity.path cause) ∨
      error = .composeFailure (.compose (.bodyTooDeep entity.path maxDepth)) := by
  cases h with
  | unsupported h => exact .inl rfl
  | conversion hm hclassifier h => exact .inr (.inl ⟨_, hm, hclassifier, _, h, rfl⟩)
  | depth hm hclassifier hidentified h => exact .inr (.inr rfl)

section Mapped

variable {m : ClassifierMapping} (hm : m ∈ format.taxonomy.mappings)
  (hclassifier : m.classifierPath = entity.classifierPath)

include hm hclassifier

/-- A classifier that is known excludes the first row, so the conversion fails if the identity does not
agree. -/
theorem serializes_conversion_iff :
    (∃ path cause, format.Serializes entity (.error (.conversion path cause))) ↔
      ¬ Identified m entity := by
  constructor
  · rintro ⟨path, cause, hrow⟩
    cases hrow with
    | conversion hm' hclassifier' h =>
      -- The mapping of the row is the one that is given.
      obtain rfl := Taxonomy.eq_of_classifierPath hm hm' (hclassifier.trans hclassifier'.symm)
      exact Taxonomy.exists_objection_iff.mp ⟨cause, h⟩
  · intro h
    obtain ⟨cause, hobjection⟩ := Taxonomy.exists_objection_iff.mpr h
    exact ⟨_, cause, .conversion hm hclassifier hobjection⟩

/-- If the identity agrees, only the depth can fail. -/
theorem serializes_composeFailure_iff (hidentified : Identified m entity) :
    (∃ error, format.Serializes entity (.error (.composeFailure error))) ↔
      maxDepth < entity.content.toJson.depth := by
  refine ⟨?_, fun h => ⟨_, .depth hm hclassifier hidentified h⟩⟩
  rintro ⟨error, hrow⟩
  cases hrow with
  | depth hm' hclassifier' hidentified' h => exact h

/-- Otherwise the entity is written. -/
theorem serializes_ok_iff (hidentified : Identified m entity) :
    (∃ text, format.Serializes entity (.ok text)) ↔ entity.content.toJson.depth ≤ maxDepth := by
  refine ⟨?_, fun h => ⟨_, .text hm hclassifier hidentified h⟩⟩
  rintro ⟨text, hrow⟩
  cases hrow with
  | text hm' hclassifier' hidentified' h => exact h

end Mapped

end Format

/-! ### Answers of the codec -/

open Taxonomy (Objection Identified)

/-- So the codec answers with the row of the entity, whatever that is. -/
theorem run_serialize_eq_iff {format : Format} {entity : Entity}
    {answer : Except CodecError String} :
    ((format.codec (m := Id)).serialize entity).run.run = answer ↔
      format.Serializes entity answer := by
  rw [run_serialize, ← Format.written_eq_iff]
  cases format.written entity <;> exact Iff.rfl

/-- **What keeps an entity from being written.** An entity has an unsupported classifier exactly if no
mapping has it. If a mapping has it, the entity cannot be converted exactly if its path is invalid or its
content does not repeat the type tag, the package and the name. If it does, the entity cannot be composed
exactly if a container of the content lies deeper than `maxDepth`, and is written otherwise. No other error
occurs: a conversion fails for what the mapping objects to the entity, and composing for its depth. -/
theorem serialize_fails_exactly (format : Format) (entity : Entity) :
    let answer := ((format.codec (m := Id)).serialize entity).run.run
    ((∃ path, answer = .error (.unsupportedClassifier path)) ↔
      ∀ m ∈ format.taxonomy.mappings, m.classifierPath ≠ entity.classifierPath) ∧
    (∀ m ∈ format.taxonomy.mappings, m.classifierPath = entity.classifierPath →
      ((∃ path cause, answer = .error (.conversion path cause)) ↔ ¬ Identified m entity) ∧
      (Identified m entity →
        ((∃ error, answer = .error (.composeFailure error)) ↔
          maxDepth < entity.content.toJson.depth) ∧
        ((∃ text, answer = .ok text) ↔ entity.content.toJson.depth ≤ maxDepth))) ∧
    ∀ error, answer = .error error →
      error = .unsupportedClassifier entity.classifierPath ∨
      (∃ m ∈ format.taxonomy.mappings, m.classifierPath = entity.classifierPath ∧
        ∃ cause, Objection m entity cause ∧ error = .conversion entity.path cause) ∨
      error = .composeFailure (.compose (.bodyTooDeep entity.path maxDepth)) := by
  intro answer
  have hanswer : ∀ {a}, answer = a ↔ format.Serializes entity a := run_serialize_eq_iff
  -- What the codec answers is the row of the entity, and the conditions are read off the rows.
  simp only [hanswer]
  refine ⟨Format.serializes_unsupportedClassifier_iff, fun m hm hclassifier => ⟨?_, ?_⟩, ?_⟩
  · exact Format.serializes_conversion_iff hm hclassifier
  · intro hidentified
    exact ⟨Format.serializes_composeFailure_iff hm hclassifier hidentified,
      Format.serializes_ok_iff hm hclassifier hidentified⟩
  · exact fun error => Format.Serializes.error_eq

/-- Arrays inside each other, as many as `n`. -/
def Json.nested : Nat → Json
  | 0 => .null
  | n + 1 => .array [nested n]

/-- Arrays have no names that could be out of order. -/
theorem Json.ordered_nested (n : Nat) : (nested n).Ordered := by
  induction n with
  | zero => trivial
  | succ n ih => exact ⟨ih, trivial⟩

/-- An entity without a mapping, one whose package is another, and two on both sides of the limit. -/
theorem serialize_fails_exactly_cases :
    let identity := ((Object.empty.insertString "_type" "dataElement").insertString "package" "a"
      ).insertString "name" "B"
    let data (path : String) (content : Object) : Entity :=
      ⟨path, "meta::pure::data::DataElement", content⟩
    let nesting (n : Nat) : Entity :=
      data "a::B" (identity.insert "x" (Json.nested n) (Json.ordered_nested n))
    let answer (entity : Entity) := ((Format.standard.codec (m := Id)).serialize entity).run.run
    (∃ path, answer ⟨"a::B", "x::Data", identity⟩ = .error (.unsupportedClassifier path)) ∧
      (∃ path cause, answer (data "b::B" identity) = .error (.conversion path cause)) ∧
      (∃ text, answer (nesting 127) = .ok text) ∧
      ∃ error, answer (nesting 128) = .error (.composeFailure error) := by
  intro identity data nesting answer
  have hmapping : ⟨"meta::pure::data::DataElement", "Data", "dataElement"⟩ ∈
      Format.standard.taxonomy.mappings := by decide
  have hunknown : ∀ m ∈ Format.standard.taxonomy.mappings, m.classifierPath ≠ "x::Data" := by decide
  have hvalid : Path.isValid "a::B" := by decide
  have hnesting : ∀ n, Identified ⟨"meta::pure::data::DataElement", "Data", "dataElement"⟩
      (nesting n) := fun n => ⟨hvalid, by cbv, by cbv, by cbv⟩
  have hother : ¬ Identified ⟨"meta::pure::data::DataElement", "Data", "dataElement"⟩
      (data "b::B" identity) := by
    intro h
    have hfind : identity.find? "package" = some (.string "a") := by cbv
    have hpackage : Path.package "b::B" = "b" := by cbv
    have heq : "a" = Path.package "b::B" :=
      Json.string.inj (Option.some.inj (hfind.symm.trans h.package))
    rw [hpackage] at heq
    exact absurd heq (by decide)
  -- The theorem is applied to each of the four entities, and its conditions are evaluated.
  obtain ⟨hclassifier, -⟩ := serialize_fails_exactly Format.standard ⟨"a::B", "x::Data", identity⟩
  obtain ⟨-, hconversion, -⟩ := serialize_fails_exactly Format.standard (data "b::B" identity)
  obtain ⟨-, hwritten, -⟩ := serialize_fails_exactly Format.standard (nesting 127)
  obtain ⟨-, hdepth, -⟩ := serialize_fails_exactly Format.standard (nesting 128)
  refine ⟨hclassifier.mpr hunknown, (hconversion _ hmapping rfl).1.mpr hother, ?_, ?_⟩
  · exact ((hwritten _ hmapping rfl).2 (hnesting 127)).2.mpr (by decide +kernel)
  · exact ((hdepth _ hmapping rfl).2 (hnesting 128)).1.mpr (by decide +kernel)

end ModelText
