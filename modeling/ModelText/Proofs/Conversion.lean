import ModelText.Proofs.Members
import ModelText.Proofs.Paths
import ModelText.Taxonomy

/-!
# Entities and declarations

A declaration that stands for an entity is taken back to that entity (`Taxonomy.toEntity_fromEntity`).
The mapping is found again by the kind, since no kind stands twice in a taxonomy. The path is valid, so
it comes back from its parts. And the three members that repeat the identity have been looked at before
they were removed, so what they are set to is what they were.

The other way round, an entity that a declaration has been taken to is taken back to the declaration
(`Taxonomy.fromEntity_toEntity`). Nothing but the path has to be known to be valid for that: that the
classifier determines the mapping again is the consistency of the taxonomy, and that the identity agrees
with path and mapping is how it has been put into the content.
-/

namespace ModelText.Taxonomy

open Json (Object)

/-! ### Look-up -/

/-- An entry whose key stands once is the one that is found by the key. -/
theorem find?_key_eq_some {α : Type} (key : α → String) {as : List α} {a : α}
    (h : (as.map key).Nodup) (ha : a ∈ as) : as.find? (key · == key a) = some a := by
  induction as with
  | nil => cases ha
  | cons b as ih =>
    rw [List.map_cons, List.nodup_cons] at h
    rw [List.find?_cons]
    rcases List.mem_cons.mp ha with rfl | ha
    · simp
    · have hne : (key b == key a) = false := by
        refine beq_eq_false_iff_ne.mpr fun heq => h.1 ?_
        rw [heq]
        exact List.mem_map_of_mem ha
      rw [hne]
      exact ih h.2 ha

/-- What is found for a classifier is a mapping with it. -/
theorem byClassifier_eq_some {t : Taxonomy} {classifierPath : String} {m : ClassifierMapping}
    (h : t.byClassifier classifierPath = some m) :
    m ∈ t.mappings ∧ m.classifierPath = classifierPath := by
  have hfound := List.find?_some h
  exact ⟨List.mem_of_find?_eq_some h, beq_iff_eq.mp hfound⟩

/-- The mapping of a classifier is the one of its kind as well. -/
theorem byKind_of_byClassifier {t : Taxonomy} {classifierPath : String} {m : ClassifierMapping}
    (h : t.byClassifier classifierPath = some m) : t.byKind m.elementKind = some m :=
  find?_key_eq_some ClassifierMapping.elementKind t.consistent.2.2 (byClassifier_eq_some h).1

/-- What is found for a kind is a mapping with that. -/
theorem byKind_eq_some {t : Taxonomy} {elementKind : String} {m : ClassifierMapping}
    (h : t.byKind elementKind = some m) : m ∈ t.mappings ∧ m.elementKind = elementKind := by
  have hfound := List.find?_some h
  exact ⟨List.mem_of_find?_eq_some h, beq_iff_eq.mp hfound⟩

/-- The mapping of a kind is the one of its classifier as well. -/
theorem byClassifier_of_byKind {t : Taxonomy} {elementKind : String} {m : ClassifierMapping}
    (h : t.byKind elementKind = some m) : t.byClassifier m.classifierPath = some m :=
  find?_key_eq_some ClassifierMapping.classifierPath t.consistent.2.1 (byKind_eq_some h).1

/-! ### Taking the identity out -/

/-- A member is taken out if it is the text that is expected. -/
theorem takeExpected_eq_ok {key expected : String} {body rest : Object} :
    takeExpected key expected body = .ok rest ↔
      body.find? key = some (.string expected) ∧ body.erase key = rest := by
  unfold takeExpected
  split
  · next h => simp [h]
  · next actual h =>
    rw [h]
    by_cases heq : actual = expected
    · simp [heq]
    · simp [heq]
  · next actual hne h =>
    rw [h]
    constructor
    · rintro ⟨⟩
    · rintro ⟨heq, -⟩
      exact absurd (Option.some.inj heq) (hne expected)

open Json.Reader (bind_eq_ok)

/-- What has to hold of an entity so that a mapping converts it. -/
structure Identified (m : ClassifierMapping) (entity : Entity) : Prop where
  path : Path.isValid entity.path
  type : entity.content.find? typeKey = some (.string m.typeTag)
  package : entity.content.find? packageKey = some (.string (Path.package entity.path))
  name : entity.content.find? nameKey = some (.string (Path.name entity.path))

/-- The content of an entity without the members that repeat its identity. -/
def withoutIdentity (content : Object) : Object :=
  ((content.erase typeKey).erase packageKey).erase nameKey

/-- A body is made if the identity agrees, and then it is the content without it. -/
theorem bodyOf_eq_ok {m : ClassifierMapping} {entity : Entity} {body : Object} :
    bodyOf m entity = .ok body ↔ Identified m entity ∧ withoutIdentity entity.content = body := by
  -- The three names differ, so taking one out does not change what is found under another.
  have hpackage : ∀ o : Object, (o.erase typeKey).find? packageKey = o.find? packageKey := fun o =>
    (o.find?_erase typeKey packageKey).trans (if_neg (by decide))
  have hname : ∀ o : Object,
      ((o.erase typeKey).erase packageKey).find? nameKey = o.find? nameKey := fun o => by
    rw [Object.find?_erase, if_neg (by decide), Object.find?_erase, if_neg (by decide)]
  unfold bodyOf
  by_cases hpath : Path.isValid entity.path
  · rw [if_pos hpath]
    simp only [bind_eq_ok, takeExpected_eq_ok]
    constructor
    · rintro ⟨_, ⟨htype, rfl⟩, _, ⟨hpack, rfl⟩, hnam, rfl⟩
      rw [hpackage] at hpack
      rw [hname] at hnam
      exact ⟨⟨hpath, htype, hpack, hnam⟩, rfl⟩
    · rintro ⟨⟨-, htype, hpack, hnam⟩, rfl⟩
      exact ⟨_, ⟨htype, rfl⟩, _, ⟨(hpackage _).trans hpack, rfl⟩, (hname _).trans hnam, rfl⟩
  · rw [if_neg hpath]
    constructor
    · rintro ⟨⟩
    · rintro ⟨hidentified, -⟩
      exact absurd hidentified.path hpath

/-- **Converting.** An entity converts exactly if its classifier has a mapping, its path is valid and
its content repeats its identity. -/
theorem fromEntity_eq_ok {t : Taxonomy} {entity : Entity} {element : Element} :
    t.fromEntity entity = .ok element ↔
      ∃ m, t.byClassifier entity.classifierPath = some m ∧ Identified m entity ∧
        element = .declaration
          { kind := m.elementKind, path := entity.path, body := withoutIdentity entity.content } := by
  unfold fromEntity
  -- The mapping is looked up first, and then the identity is tested.
  cases hm : t.byClassifier entity.classifierPath with
  | none => simp
  | some m =>
    dsimp only
    cases hbody : bodyOf m entity with
    | error cause =>
      dsimp only
      constructor
      · rintro ⟨⟩
      · rintro ⟨_, ⟨⟩, hidentified, -⟩
        rw [bodyOf_eq_ok.mpr ⟨hidentified, rfl⟩] at hbody
        cases hbody
    | ok body =>
      obtain ⟨hidentified, rfl⟩ := bodyOf_eq_ok.mp hbody
      simp [hidentified, eq_comm]

/-! ### Putting the identity back -/

/-- Without its identity a content has all its other members. -/
theorem find?_withoutIdentity (content : Object) (name : String) :
    (withoutIdentity content).find? name =
      if name = typeKey ∨ name = packageKey ∨ name = nameKey then none else content.find? name := by
  unfold withoutIdentity
  rw [Object.find?_erase, Object.find?_erase, Object.find?_erase]
  -- Name by name: each is missing because it has been taken out, and any other is untouched.
  by_cases h1 : nameKey = name
  · simp [h1]
  · by_cases h2 : packageKey = name
    · simp [h2]
    · by_cases h3 : typeKey = name
      · simp [h3]
      · rw [if_neg h1, if_neg h2, if_neg h3, if_neg]
        rintro (heq | heq | heq)
        · exact h3 heq.symm
        · exact h2 heq.symm
        · exact h1 heq.symm

/-- A body gets the identity back where it has no such member of its own. -/
theorem find?_contentOf (m : ClassifierMapping) (path : String) (body : Object) (name : String) :
    (contentOf m path body).find? name = (body.find? name).or
      (if nameKey = name then some (.string (Path.name path))
        else if packageKey = name then some (.string (Path.package path))
        else if typeKey = name then some (.string m.typeTag)
        else none) := by
  unfold contentOf
  rw [Object.find?_union, Object.find?_insertString, Object.find?_insertString,
    Object.find?_insertString, Object.find?_empty]

/-- An identity that agrees with mapping and path comes back as it was. -/
theorem contentOf_withoutIdentity {m : ClassifierMapping} {entity : Entity}
    (h : Identified m entity) :
    contentOf m entity.path (withoutIdentity entity.content) = entity.content := by
  -- One name at a time: a name of the identity comes back from the mapping and the path, and any
  -- other from the body.
  refine Object.ext_find? fun name => ?_
  rw [find?_contentOf, find?_withoutIdentity]
  by_cases hname : nameKey = name
  · subst hname
    rw [h.name]
    rfl
  · by_cases hpackage : packageKey = name
    · subst hpackage
      rw [h.package]
      rfl
    · by_cases htype : typeKey = name
      · subst htype
        rw [h.type]
        rfl
      · have hother : ¬ (name = typeKey ∨ name = packageKey ∨ name = nameKey) := by
          rintro (heq | heq | heq)
          · exact htype heq.symm
          · exact hpackage heq.symm
          · exact hname heq.symm
        rw [if_neg hother, if_neg hname, if_neg hpackage, if_neg htype, Option.or_none]

/-- A body without members of the identity. -/
def Anonymous (body : Object) : Prop :=
  ∀ key ∈ identityKeys, body.find? key = none

/-- A body has no identity if it has none of the three names. -/
theorem find?_identityKeys_eq_none {body : Object} :
    identityKeys.find? body.contains = none ↔ Anonymous body := by
  rw [List.find?_eq_none]
  refine forall₂_congr fun key _ => ?_
  rw [Object.contains_eq, Option.not_isSome_iff_eq_none]

/-- **Converting back.** A declaration stands for an entity exactly if its kind has a mapping and its
body leaves the identity to the mapping and the path. -/
theorem toEntity_declaration_eq_ok {t : Taxonomy} {d : Declaration} {entity : Entity} :
    t.toEntity (.declaration d) = .ok entity ↔
      ∃ m, t.byKind d.kind = some m ∧ Anonymous d.body ∧
        entity =
          { path := Path.join (Path.package d.path) (Path.name d.path)
            classifierPath := m.classifierPath
            content := contentOf m d.path d.body } := by
  unfold toEntity
  dsimp only
  cases hm : t.byKind d.kind with
  | none => simp
  | some m =>
    dsimp only
    -- A name of the identity in the body is an error, so there is none.
    cases hkey : identityKeys.find? d.body.contains with
    | some key =>
      dsimp only
      constructor
      · rintro ⟨⟩
      · rintro ⟨_, -, hbody, -⟩
        rw [find?_identityKeys_eq_none.mpr hbody] at hkey
        cases hkey
    | none => simp [find?_identityKeys_eq_none.mp hkey, eq_comm]

/-- What has been taken out is not there. -/
theorem anonymous_withoutIdentity (content : Object) : Anonymous (withoutIdentity content) := by
  intro key hkey
  have hkeys : key = typeKey ∨ key = packageKey ∨ key = nameKey := by
    simpa [identityKeys] using hkey
  rw [find?_withoutIdentity, if_pos hkeys]

/-- **There and back.** The declaration that stands for an entity is taken back to it. -/
theorem toEntity_fromEntity {t : Taxonomy} {entity : Entity} {element : Element}
    (h : t.fromEntity entity = .ok element) : t.toEntity element = .ok entity := by
  obtain ⟨m, hm, hidentified, rfl⟩ := fromEntity_eq_ok.mp h
  obtain ⟨-, hclassifier⟩ := byClassifier_eq_some hm
  -- The body does not hold the identity any more, so there is nothing to object to.
  refine toEntity_declaration_eq_ok.mpr
    ⟨m, byKind_of_byClassifier hm, anonymous_withoutIdentity entity.content, ?_⟩
  rw [contentOf_withoutIdentity hidentified, Path.join_package_name hidentified.path, hclassifier]

/-! ### Taking out what has been put back -/

/-- The identity that has been put into a body agrees with what it has been taken from. -/
theorem identified_contentOf {m : ClassifierMapping} {path classifierPath : String} {body : Object}
    (hpath : Path.isValid path) (hbody : Anonymous body) :
    Identified m ⟨path, classifierPath, contentOf m path body⟩ := by
  have hnone : ∀ key ∈ identityKeys, body.find? key = none := hbody
  simp only [identityKeys, List.forall_mem_cons] at hnone
  obtain ⟨htype, hpackage, hname, -⟩ := hnone
  refine ⟨hpath, ?_, ?_, ?_⟩
  · rw [find?_contentOf, htype]
    rfl
  · rw [find?_contentOf, hpackage]
    rfl
  · rw [find?_contentOf, hname]
    rfl

/-- Taking the identity out again leaves the body as it was. -/
theorem withoutIdentity_contentOf {m : ClassifierMapping} {path : String} {body : Object}
    (h : Anonymous body) : withoutIdentity (contentOf m path body) = body := by
  refine Object.ext_find? fun name => ?_
  rw [find?_withoutIdentity, find?_contentOf]
  split
  · next hkey => exact (h name (by simpa [identityKeys] using hkey)).symm
  · next hkey =>
    -- Any other name has been set by the body alone.
    rw [not_or, not_or] at hkey
    rw [if_neg (Ne.symm hkey.2.2), if_neg (Ne.symm hkey.2.1), if_neg (Ne.symm hkey.1),
      Option.or_none]

/-- **Back and there.** The entity that a declaration stands for is taken to the declaration again. -/
theorem fromEntity_toEntity {t : Taxonomy} {d : Declaration} {entity : Entity}
    (hpath : Path.isValid d.path) (hsource : d.source = none)
    (h : t.toEntity (.declaration d) = .ok entity) : t.fromEntity entity = .ok (.declaration d) := by
  obtain ⟨m, hm, hbody, rfl⟩ := toEntity_declaration_eq_ok.mp h
  obtain ⟨-, hkind⟩ := byKind_eq_some hm
  rw [Path.join_package_name hpath]
  refine fromEntity_eq_ok.mpr ⟨m, byClassifier_of_byKind hm, identified_contentOf hpath hbody, ?_⟩
  rw [withoutIdentity_contentOf hbody, hkind, ← hsource]

end ModelText.Taxonomy
