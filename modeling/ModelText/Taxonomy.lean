import ModelText.Codec.Error
import ModelText.Element
import ModelText.Entity

/-!
# Taxonomies

A taxonomy says which classifiers have a form in text: under which kind a declaration stands for an
entity of a classifier, and which tag the entity's content bears. Classifiers and kinds determine
each other, and both can be written: this is what `Taxonomy.Consistent` says, and a `Taxonomy`
satisfies it by construction.

An entity's content repeats its identity in three members, the type tag, the package and the name.
`Taxonomy.fromEntity` checks and removes them, `Taxonomy.toEntity` puts them back; every other
member is carried over as it is.
-/

namespace ModelText

/-- A classifier, and the kind and the type tag that its entities have in text and in content. -/
structure ClassifierMapping where
  classifierPath : String
  elementKind : String
  typeTag : String
deriving DecidableEq, Repr

/-- Mappings between which classifiers and kinds determine each other: no classifier and no kind
stands twice, every classifier is a path and every kind an identifier. -/
def ClassifierMapping.Consistent (mappings : List ClassifierMapping) : Prop :=
  (∀ m ∈ mappings, Path.isValid m.classifierPath ∧ Path.isIdentifier m.elementKind) ∧
    (mappings.map (·.classifierPath)).Nodup ∧ (mappings.map (·.elementKind)).Nodup

instance (mappings : List ClassifierMapping) : Decidable (ClassifierMapping.Consistent mappings) :=
  inferInstanceAs (Decidable (_ ∧ _ ∧ _))

/-- Consistent mappings. -/
structure Taxonomy where
  mappings : List ClassifierMapping
  consistent : ClassifierMapping.Consistent mappings

namespace Taxonomy

/-! ### Extension -/

/-- The taxonomy without any mapping. -/
def empty : Taxonomy :=
  ⟨[], by decide⟩

/-- A mapping whose names can be written and are new keeps a list consistent. -/
theorem consistent_append_singleton {mappings : List ClassifierMapping} {m : ClassifierMapping}
    (h : ClassifierMapping.Consistent mappings) (hc : Path.isValid m.classifierPath)
    (hk : Path.isIdentifier m.elementKind)
    (nc : m.classifierPath ∉ mappings.map (·.classifierPath))
    (nk : m.elementKind ∉ mappings.map (·.elementKind)) :
    ClassifierMapping.Consistent (mappings ++ [m]) := by
  refine ⟨fun x hx => ?_, ?_, ?_⟩
  · rcases List.mem_append.1 hx with hx | hx
    · exact h.1 x hx
    · cases List.mem_singleton.1 hx
      exact ⟨hc, hk⟩
  · rw [List.map_append]
    exact List.nodup_append.2 ⟨h.2.1, by simp, fun a ha b hb e => nc (by simp_all)⟩
  · rw [List.map_append]
    exact List.nodup_append.2 ⟨h.2.2, by simp, fun a ha b hb e => nk (by simp_all)⟩

/-- Adds a mapping at the end, if the mappings stay consistent. -/
def add (t : Taxonomy) (m : ClassifierMapping) : Except CodecError Taxonomy :=
  if hc : Path.isValid m.classifierPath then
    if hk : Path.isIdentifier m.elementKind then
      if nc : m.classifierPath ∈ t.mappings.map (·.classifierPath) then
        .error (.config (.duplicateClassifierPath m.classifierPath))
      else if nk : m.elementKind ∈ t.mappings.map (·.elementKind) then
        .error (.config (.duplicateElementKind m.elementKind))
      else .ok ⟨t.mappings ++ [m], consistent_append_singleton t.consistent hc hk nc nk⟩
    else .error (.config (.invalidElementKind m.elementKind))
  else .error (.config (.invalidClassifierPath m.classifierPath))

/-- Adds mappings at the end one after another, up to the first that does not fit. -/
def extend (t : Taxonomy) : List ClassifierMapping → Except CodecError Taxonomy
  | [] => .ok t
  | m :: ms => do
    let t ← t.add m
    t.extend ms

/-- The mappings of the built-in taxonomy. -/
def standardMappings : List ClassifierMapping :=
  [⟨"meta::pure::metamodel::type::Class", "Class", "class"⟩,
   ⟨"meta::pure::metamodel::type::Enumeration", "Enum", "Enumeration"⟩,
   ⟨"meta::pure::metamodel::relationship::Association", "Association", "association"⟩,
   ⟨"meta::pure::metamodel::extension::Profile", "Profile", "profile"⟩,
   ⟨"meta::pure::metamodel::function::ConcreteFunctionDefinition", "Function", "function"⟩,
   ⟨"meta::pure::metamodel::type::Measure", "Measure", "measure"⟩,
   ⟨"meta::pure::mapping::Mapping", "Mapping", "mapping"⟩,
   ⟨"meta::pure::runtime::PackageableRuntime", "Runtime", "runtime"⟩,
   ⟨"meta::pure::runtime::PackageableConnection", "Connection", "connection"⟩,
   ⟨"meta::legend::service::metamodel::Service", "Service", "service"⟩,
   ⟨"meta::pure::data::DataElement", "Data", "dataElement"⟩]

/-- The built-in taxonomy. -/
def standard : Taxonomy :=
  ⟨standardMappings, by decide⟩

/-! ### Look-up -/

/-- The mapping of a classifier. -/
def byClassifier (t : Taxonomy) (classifierPath : String) : Option ClassifierMapping :=
  t.mappings.find? (·.classifierPath == classifierPath)

/-- The mapping of a kind. -/
def byKind (t : Taxonomy) (elementKind : String) : Option ClassifierMapping :=
  t.mappings.find? (·.elementKind == elementKind)

/-- Whether entities of a classifier have a form in text. -/
def supports (t : Taxonomy) (classifierPath : String) : Bool :=
  (t.byClassifier classifierPath).isSome

/-! ### Conversion -/

/-- The member of an entity's content that bears the type tag. -/
def typeKey : String := "_type"

/-- The member of an entity's content that bears the package. -/
def packageKey : String := "package"

/-- The member of an entity's content that bears the simple name. -/
def nameKey : String := "name"

/-- The members that repeat the identity of an entity, in the order in which they are looked at. -/
def identityKeys : List String :=
  [typeKey, packageKey, nameKey]

/-- Removes a member that has to be a certain string. -/
def takeExpected (key expected : String) (body : Json.Object) :
    Except ConversionCause Json.Object :=
  match body.find? key with
  | none => .error (.missing key)
  | some (.string actual) =>
    if actual = expected then .ok (body.erase key)
    else .error (.mismatch key (.string actual) expected)
  | some actual => .error (.mismatch key actual expected)

/-- The content of an entity without its identity, which has to agree with what the mapping and the
path say. -/
def bodyOf (m : ClassifierMapping) (entity : Entity) : Except ConversionCause Json.Object :=
  if Path.isValid entity.path then do
    let body ← takeExpected typeKey m.typeTag entity.content
    let body ← takeExpected packageKey (Path.package entity.path) body
    takeExpected nameKey (Path.name entity.path) body
  else .error .invalidEntityPath

/-- The declaration that stands for an entity. -/
def fromEntity (t : Taxonomy) (entity : Entity) : Except CodecError Element :=
  match t.byClassifier entity.classifierPath with
  | none => .error (.unsupportedClassifier entity.classifierPath)
  | some m =>
    match bodyOf m entity with
    | .error cause => .error (.conversion entity.path cause)
    | .ok body => .ok (.declaration { kind := m.elementKind, path := entity.path, body })

/-- A body with the identity that a mapping and a path give it. -/
def contentOf (m : ClassifierMapping) (path : String) (body : Json.Object) : Json.Object :=
  (((Json.Object.empty.insertString typeKey m.typeTag).insertString packageKey
    (Path.package path)).insertString nameKey (Path.name path)).union body

/-- The entity that a declaration stands for. -/
def toEntity (t : Taxonomy) : Element → Except CodecError Entity
  | .sectionIndex index => .error (.conversion index.path .sectionIndex)
  | .declaration d =>
    match t.byKind d.kind with
    | none => .error (.conversion d.path (.unknownKind d.kind))
    | some m =>
      match identityKeys.find? d.body.contains with
      | some key => .error (.conversion d.path (.reservedMember key))
      | none =>
        .ok {
          path := Path.join (Path.package d.path) (Path.name d.path)
          classifierPath := m.classifierPath
          content := contentOf m d.path d.body }

end Taxonomy

end ModelText
