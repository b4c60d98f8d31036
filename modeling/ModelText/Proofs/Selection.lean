import ModelText.Engine.Fixed
import ModelText.Proofs.Content

/-!
# One entity and many

A text that stands for a single entity is read in one of two ways, as the one entity or as a list of
them, and the two select their content differently: `partition` looks at every index of a parse, and
`classify` at most at one. Still they let pass the same parses with one declaration, as long as there is
one index at most (`classify_eq_ok`, `partition_eq_ok`). So where a single entity is read, the list of
just this entity is read too, and the other way round (`one_agrees_with_many`). This is so for any engine
and any converter; the engine of this library's grammar never gives more than one index.

It is not so for errors (`one_differs_from_many`). An error of the converter comes out as it is, whatever
it says. And what `classify` refuses for its counts it has not searched for imports, so the two readings can
refuse the same text for different reasons.
-/

namespace ModelText

open Json.Reader (bind_eq_ok)

namespace Element

/-- No section of an index among the elements imports anything. -/
def ImportFree (es : List Element) : Prop :=
  ∀ index ∈ sectionIndexes es, ∀ s ∈ index.sections, ¬ s.hasImports

theorem length_eq (es : List Element) :
    es.length = (declarations es).length + (sectionIndexes es).length := by
  induction es with
  | nil => rfl
  | cons e es ih =>
    cases e with
    | declaration d =>
      show es.length + 1 = (declarations es).length + 1 + (sectionIndexes es).length
      omega
    | sectionIndex index =>
      show es.length + 1 = (declarations es).length + ((sectionIndexes es).length + 1)
      omega

theorem countP_isSectionIndex (es : List Element) :
    es.countP isSectionIndex = (sectionIndexes es).length := by
  induction es with
  | nil => rfl
  | cons e es ih =>
    cases e with
    | declaration d => rwa [List.countP_cons_of_neg Bool.false_ne_true]
    | sectionIndex index =>
      rw [List.countP_cons_of_pos rfl, ih]
      rfl

end Element

open Element (declarations sectionIndexes ImportFree)

theorem Section.hasImports_iff {s : Section} :
    s.hasImports ↔ ∃ imports, s.kind = .importAware imports ∧ imports ≠ [] := by
  unfold hasImports
  cases s.kind <;> simp

/-! ### Selecting one element -/

/-- More than two elements are refused for their counts, whatever they import. -/
theorem classify_of_two_lt {es : List Element} (h : 2 < es.length) :
    classify es =
      if 1 < (sectionIndexes es).length then .error (.ambiguousMetadata (sectionIndexes es).length)
      else .error (.tooManyContentElements (declarations es).length) := by
  obtain _ | ⟨a, _ | ⟨b, _ | ⟨c, es⟩⟩⟩ := es
  · cases h
  · simp at h
  · simp at h
  · have hcount := Element.countP_isSectionIndex (a :: b :: c :: es)
    have hlength := Element.length_eq (a :: b :: c :: es)
    have hcontent : (a :: b :: c :: es).length - (sectionIndexes (a :: b :: c :: es)).length =
        (declarations (a :: b :: c :: es)).length := by omega
    unfold classify
    cases a <;> simp only [hcount, hcontent]

/-- A declaration beside an index is selected, on whichever side it stands, if no section of the index
imports anything. -/
theorem classify_pair {es : List Element} {d : Declaration} {index : SectionIndex} {content : Element}
    (h : es = [.declaration d, .sectionIndex index] ∨ es = [.sectionIndex index, .declaration d]) :
    classify es = .ok content ↔
      content = .declaration d ∧ ∀ s ∈ index.sections, ¬ s.hasImports := by
  have hclassify : classify es = do checkIndex index; return .declaration d := by
    rcases h with rfl | rfl <;> rfl
  rw [hclassify, bind_eq_ok, ← checkIndex_eq_ok]
  refine ⟨?_, ?_⟩
  · rintro ⟨_, hcheck, e⟩
    cases e
    exact ⟨rfl, hcheck⟩
  · rintro ⟨rfl, hcheck⟩
    exact ⟨(), hcheck, rfl⟩

/-- **Selecting one.** An element is selected exactly if it is the only declaration, there is one index
at most, and no section imports anything. -/
theorem classify_eq_ok {es : List Element} {content : Element} :
    classify es = .ok content ↔ ∃ d, content = .declaration d ∧ declarations es = [d] ∧
      (sectionIndexes es).length ≤ 1 ∧ ImportFree es := by
  have hlength := Element.length_eq es
  by_cases hmany : 2 < es.length
  · -- One declaration and one index at most are no more than two elements.
    rw [classify_of_two_lt hmany]
    refine iff_of_false ?_ ?_
    · split <;> exact nofun
    · rintro ⟨d, -, hone, hindexes, -⟩
      rw [hone, List.length_singleton] at hlength
      omega
  -- What is left are the lists of no element, of one and of two.
  · obtain _ | ⟨a, _ | ⟨b, _ | ⟨c, es⟩⟩⟩ := es
    · exact iff_of_false nofun nofun
    · cases a with
      | declaration d =>
        refine ⟨fun h => ?_, ?_⟩
        · cases h
          exact ⟨d, rfl, rfl, Nat.zero_le 1, nofun⟩
        · rintro ⟨_, rfl, ⟨⟩, -, -⟩
          rfl
      | sectionIndex index => exact iff_of_false nofun nofun
    · have hpair : ∀ d index, declarations [a, b] = [d] → sectionIndexes [a, b] = [index] →
          ([a, b] = [.declaration d, .sectionIndex index] ∨
            [a, b] = [.sectionIndex index, .declaration d]) →
          (classify [a, b] = .ok content ↔ ∃ d, content = .declaration d ∧
            declarations [a, b] = [d] ∧ (sectionIndexes [a, b]).length ≤ 1 ∧
            ImportFree [a, b]) := by
        intro d index hone hindex h
        simp only [classify_pair h, ImportFree, hone, hindex, List.forall_mem_singleton]
        refine ⟨fun ⟨hcontent, himports⟩ => ⟨d, hcontent, rfl, Nat.le_refl 1, himports⟩, ?_⟩
        rintro ⟨_, hcontent, ⟨⟩, -, himports⟩
        exact ⟨hcontent, himports⟩
      cases a with
      | declaration d =>
        cases b with
        | declaration d' => exact iff_of_false nofun nofun
        | sectionIndex index => exact hpair d index rfl rfl (.inl rfl)
      | sectionIndex index =>
        cases b with
        | declaration d => exact hpair d index rfl rfl (.inr rfl)
        | sectionIndex index' =>
          -- An import in front of another index is the one thing that is looked at here.
          refine iff_of_false (fun h => ?_) nofun
          obtain ⟨_, -, e⟩ := bind_eq_ok.mp h
          cases e
    · simp at hmany

/-- Only a parse with several indexes is ambiguous. -/
theorem one_lt_of_classify {es : List Element} {found : Nat}
    (h : classify es = .error (.ambiguousMetadata found)) : 1 < (sectionIndexes es).length := by
  by_cases hmany : 2 < es.length
  · rw [classify_of_two_lt hmany] at h
    by_cases hindexes : 1 < (sectionIndexes es).length
    · exact hindexes
    · rw [if_neg hindexes] at h
      cases h
  · -- With two elements or fewer the index is only looked at for imports, and that is another error.
    have hcheck : ∀ (index : SectionIndex) (f : Unit → Except CodecError Element),
        (checkIndex index >>= f) = .error (.ambiguousMetadata found) →
          f () = .error (.ambiguousMetadata found) := by
      intro index f
      unfold checkIndex
      split
      · exact nofun
      · exact id
    obtain _ | ⟨a, _ | ⟨b, _ | ⟨c, es⟩⟩⟩ := es
    · cases h
    · cases a <;> cases h
    · cases a <;> cases b <;> first | cases hcheck _ _ h | cases h
    · simp at hmany

/-! ### Selecting many -/

/-- An import anywhere keeps a parse from being divided. -/
theorem partition_of_imports {es : List Element} (h : ¬ ImportFree es) :
    partition es = .error .importsUnsupported := by
  -- By induction on the indexes: the first that imports anything is refused, and there is no other error.
  have hcheck : ∀ indexes : List SectionIndex,
      indexes.forM checkIndex = .ok () ∨ indexes.forM checkIndex = .error .importsUnsupported := by
    intro indexes
    induction indexes with
    | nil => exact .inl rfl
    | cons index indexes ih =>
      have hcons : (index :: indexes).forM checkIndex =
          checkIndex index >>= fun _ => indexes.forM checkIndex := rfl
      rw [hcons, checkIndex]
      split
      · exact .inr rfl
      · exact ih
  unfold partition
  dsimp only
  rcases hcheck (sectionIndexes es) with hok | herror
  · exact absurd (fun index hindex => checkIndex_eq_ok.mp (forM_eq_ok.mp hok index hindex)) h
  · rw [herror]
    rfl

/-! ### Reading -/

namespace Codec

variable {codec : Codec Id} {text : String}

/-- The answer of the engine, as an answer of the codec. -/
theorem run_parse : (codec.parse text).run.run =
    (codec.engine.parse text false).run.mapError .parseFailure := by
  unfold parse
  rw [run_liftM_bind, Id.run_bind]
  cases (codec.engine.parse text false).run <;> rfl

/-- A text is read as the entity of the one element that is selected from its parse. -/
theorem run_deserialize : (codec.deserialize text).run.run = (do
    let es ← (codec.engine.parse text false).run.mapError .parseFailure
    let content ← classify es
    (codec.converter.toEntity content).run) := by
  rw [← run_parse]
  unfold deserialize
  rw [ExceptT.run_bind, Id.run_bind]
  cases (codec.parse text).run.run with
  | error e => rfl
  | ok es =>
    dsimp only
    rw [ExceptT.run_bind, ExceptT.run_mk, pure_bind]
    show _ = classify es >>= _
    cases classify es <;> rfl

/-- A text is read as the entities of the content of its parse. -/
theorem run_deserializeMany : (codec.deserializeMany text).run.run = (do
    let es ← (codec.engine.parse text false).run.mapError .parseFailure
    let parts ← partition es
    parts.content.mapM fun content => (codec.converter.toEntity content).run) := by
  rw [← run_parse]
  unfold deserializeMany
  rw [ExceptT.run_bind, Id.run_bind]
  cases (codec.parse text).run.run with
  | error e => rfl
  | ok es =>
    dsimp only
    rw [ExceptT.run_bind, ExceptT.run_mk, pure_bind]
    show _ = partition es >>= _
    cases partition es with
    | error e => rfl
    | ok parts =>
      have hmap := mapM_mk_pure (m := Id) (fun content => (codec.converter.toEntity content).run)
        parts.content
      exact congrArg (fun x => (ExceptT.run x).run) hmap

/-- A text is read as one entity if its parse has one declaration, one index at most and no imports, and
the converter has an entity for the declaration. -/
theorem deserialize_eq_ok {entity : Entity} :
    (codec.deserialize text).run.run = .ok entity ↔
      ∃ es d, (codec.engine.parse text false).run = .ok es ∧ declarations es = [d] ∧
        (sectionIndexes es).length ≤ 1 ∧ ImportFree es ∧
        (codec.converter.toEntity (.declaration d)).run = .ok entity := by
  simp only [run_deserialize, bind_eq_ok, mapError_eq_ok, classify_eq_ok]
  constructor
  · rintro ⟨es, hes, _, ⟨d, rfl, hone, hindexes, himports⟩, hentity⟩
    exact ⟨es, d, hes, hone, hindexes, himports, hentity⟩
  · rintro ⟨es, d, hes, hone, hindexes, himports, hentity⟩
    exact ⟨es, hes, _, ⟨d, rfl, hone, hindexes, himports⟩, hentity⟩

/-- It is read as many if its parse has no imports and the converter has an entity for each declaration.
-/
theorem deserializeMany_eq_ok {entities : List Entity} :
    (codec.deserializeMany text).run.run = .ok entities ↔
      ∃ es, (codec.engine.parse text false).run = .ok es ∧ ImportFree es ∧
        List.Forall₂ (fun d entity => (codec.converter.toEntity (.declaration d)).run = .ok entity)
          (declarations es) entities := by
  simp only [run_deserializeMany, bind_eq_ok, mapError_eq_ok, partition_eq_ok]
  constructor
  · rintro ⟨es, hes, _, ⟨himports, rfl⟩, hentities⟩
    exact ⟨es, hes, himports, List.forall₂_map_left_iff.mp (Grammar.mapM_eq_ok.mp hentities)⟩
  · rintro ⟨es, hes, himports, hentities⟩
    exact ⟨es, hes, _, ⟨himports, rfl⟩, Grammar.mapM_eq_ok.mpr (List.forall₂_map_left_iff.mpr hentities)⟩

/-- Imports are refused before any content is converted. -/
theorem deserializeMany_of_imports {es : List Element}
    (hes : (codec.engine.parse text false).run = .ok es) (h : ¬ ImportFree es) :
    (codec.deserializeMany text).run.run = .error .importsUnsupported := by
  rw [run_deserializeMany, hes]
  show partition es >>= _ = _
  rw [partition_of_imports h]
  rfl

/-- Where there is one index at most, a text is ambiguous only if the converter itself says so of the
element that is selected. -/
theorem ambiguous_of_deserialize {found : Nat}
    (h : (codec.deserialize text).run.run = .error (.ambiguousMetadata found))
    (hindexes : ∀ es, (codec.engine.parse text false).run = .ok es →
      (sectionIndexes es).length ≤ 1) :
    ∃ es content, (codec.engine.parse text false).run = .ok es ∧ classify es = .ok content ∧
      (codec.converter.toEntity content).run = .error (.ambiguousMetadata found) := by
  rw [run_deserialize] at h
  cases hes : (codec.engine.parse text false).run with
  | error e =>
    rw [hes] at h
    cases h
  | ok es =>
    rw [hes] at h
    -- The error comes from selecting the element or from converting it. Selecting has one index at most
    -- here.
    cases hcontent : classify es with
    | error e =>
      have he : classify es >>= (fun content => (codec.converter.toEntity content).run) =
        .error (.ambiguousMetadata found) := h
      rw [hcontent] at he
      obtain rfl := Except.error.inj he
      exact absurd (one_lt_of_classify hcontent) (Nat.not_lt.mpr (hindexes es hes))
    | ok content =>
      have he : classify es >>= (fun content => (codec.converter.toEntity content).run) =
        .error (.ambiguousMetadata found) := h
      rw [hcontent] at he
      exact ⟨es, content, rfl, hcontent, he⟩

end Codec

/-! ### The engine of the grammar -/

/-- The engine parses as the grammar does. -/
theorem Engine.run_parse_modelText (style : Grammar.RenderStyle) (text : String)
    (keepSource : Bool) :
    ((Engine.modelText (m := Id) style).parse text keepSource).run =
      Grammar.parse text keepSource := by
  unfold modelText
  dsimp only
  cases Grammar.parse text keepSource <;> rfl

/-- A parse ends with its index, if it has one. -/
theorem Grammar.length_sectionIndexes_of_parse {text : String} {es : List Element}
    (h : parse text false = .ok es) : (sectionIndexes es).length ≤ 1 := by
  obtain ⟨d, -, -, ds, -, rfl⟩ := parse_eq_ok.mp h
  rw [sectionIndexes_append_index]
  exact Option.length_toList_le

/-- Where a taxonomy has no entity for an element, it says so of the path of the element. -/
theorem Taxonomy.toEntity_eq_error {t : Taxonomy} {e : Element} {error : CodecError}
    (h : t.toEntity e = .error error) : ∃ cause, error = .conversion e.path cause := by
  cases e with
  | sectionIndex index => exact ⟨_, (Except.error.inj h).symm⟩
  | declaration d =>
    unfold toEntity at h
    dsimp only at h
    split at h
    · exact ⟨_, (Except.error.inj h).symm⟩
    · split at h
      · exact ⟨_, (Except.error.inj h).symm⟩
      · cases h

/-! ### The two readings -/

/-- **One and many.** For any engine and any converter, a text that is read as one entity is read as the
list of just that entity; where its parse has one index at most, also the other way round. If any section
of any index imports anything, nothing is read, and reading many refuses the imports before it converts
anything. The engine of the grammar never gives more than one index, and then the text is never
ambiguous, except to a converter that says so itself. -/
theorem one_agrees_with_many (codec : Codec Id) (text : String) :
    (∀ entity, (codec.deserialize text).run.run = .ok entity →
      (codec.deserializeMany text).run.run = .ok [entity]) ∧
    (∀ es, (codec.engine.parse text false).run = .ok es →
      ((sectionIndexes es).length ≤ 1 → ∀ entity,
        (codec.deserializeMany text).run.run = .ok [entity] →
          (codec.deserialize text).run.run = .ok entity) ∧
      ∀ index ∈ sectionIndexes es, ∀ s ∈ index.sections, ∀ imports,
        s.kind = .importAware imports → imports ≠ [] →
          (∀ entity, (codec.deserialize text).run.run ≠ .ok entity) ∧
          (codec.deserializeMany text).run.run = .error .importsUnsupported) ∧
    ∀ style, codec.engine = .modelText style →
      (∀ es, (codec.engine.parse text false).run = .ok es → (sectionIndexes es).length ≤ 1) ∧
      (∀ found, (codec.deserialize text).run.run = .error (.ambiguousMetadata found) →
        ∃ es content, (codec.engine.parse text false).run = .ok es ∧ classify es = .ok content ∧
          (codec.converter.toEntity content).run = .error (.ambiguousMetadata found)) ∧
      ∀ t, codec.converter = .ofTaxonomy t → ∀ found,
        (codec.deserialize text).run.run ≠ .error (.ambiguousMetadata found) := by
  refine ⟨?_, fun es hes => ⟨?_, ?_⟩, fun style hengine => ?_⟩
  · -- One entity: then there is one declaration, and the list of it is what is read.
    intro entity h
    obtain ⟨es, d, hes, hone, -, himports, hentity⟩ := Codec.deserialize_eq_ok.mp h
    refine Codec.deserializeMany_eq_ok.mpr ⟨es, hes, himports, ?_⟩
    rw [hone]
    exact .cons hentity .nil
  · -- Many: one entity comes from one declaration, which is selected if the indexes allow it.
    intro hindexes entity h
    obtain ⟨es', hes', himports, hentities⟩ := Codec.deserializeMany_eq_ok.mp h
    obtain rfl := Except.ok.inj (hes.symm.trans hes')
    obtain ⟨d, _, hentity, hnil, hone⟩ := List.forall₂_cons_right_iff.mp hentities
    obtain rfl := List.forall₂_nil_right_iff.mp hnil
    exact Codec.deserialize_eq_ok.mpr ⟨es, d, hes, hone, hindexes, himports, hentity⟩
  · -- An import anywhere keeps both readings from an answer.
    intro index hindex s hs imports hkind hne
    have himports : ¬ ImportFree es := fun h =>
      h index hindex s hs (Section.hasImports_iff.mpr ⟨imports, hkind, hne⟩)
    refine ⟨fun entity h => ?_, Codec.deserializeMany_of_imports hes himports⟩
    obtain ⟨es', _, hes', -, -, hfree, -⟩ := Codec.deserialize_eq_ok.mp h
    obtain rfl := Except.ok.inj (hes.symm.trans hes')
    exact himports hfree
  · have hindexes : ∀ es, (codec.engine.parse text false).run = .ok es →
        (sectionIndexes es).length ≤ 1 := by
      intro es hes
      rw [hengine, Engine.run_parse_modelText] at hes
      exact Grammar.length_sectionIndexes_of_parse hes
    refine ⟨hindexes, fun found h => Codec.ambiguous_of_deserialize h hindexes, ?_⟩
    intro t hconverter found h
    obtain ⟨es, content, -, -, herror⟩ := Codec.ambiguous_of_deserialize h hindexes
    rw [hconverter] at herror
    obtain ⟨cause, h⟩ := Taxonomy.toEntity_eq_error (t := t) herror
    cases h

/-- A text with a header, and a parse in which an import stands behind an element of no known kind and
behind another index. -/
theorem one_agrees_with_many_behind :
    let text := "###Data\nData a::B\x7b\x7d"
    let entity : Entity := ⟨"a::B", "meta::pure::data::DataElement",
      ((Json.Object.empty.insertString "_type" "dataElement").insertString
        "package" "a").insertString "name" "B"⟩
    let importing : SectionIndex :=
      { sections := [{ parserName := "Pure", elements := [], kind := .importAware ["a"] }] }
    let es : List Element :=
      [.declaration { kind := "Unknown", path := "a::B", body := Json.Object.empty },
        .sectionIndex { sections := [] }, .sectionIndex importing]
    let scripted : Codec Id := ⟨"scripted", "txt", .fixed (.ok es) (.ok ""), .ofTaxonomy .standard⟩
    (((Format.standard.codec (m := Id)).deserialize text).run.run = .ok entity ∧
        ((Format.standard.codec (m := Id)).deserializeMany text).run.run = .ok [entity] ∧
        ∀ found, ((Format.standard.codec (m := Id)).deserialize text).run.run ≠
          .error (.ambiguousMetadata found)) ∧
      (∀ entity, (scripted.deserialize "").run.run ≠ .ok entity) ∧
      (scripted.deserializeMany "").run.run = .error .importsUnsupported := by
  intro text entity importing es scripted
  have h : ((Format.standard.codec (m := Id)).deserialize text).run.run = .ok entity := by
    simp only [text, entity]
    cbv
  obtain ⟨hmany, -, hgrammar⟩ := one_agrees_with_many (Format.standard.codec (m := Id)) text
  obtain ⟨-, -, hambiguous⟩ := hgrammar .pretty rfl
  obtain ⟨-, hparse, -⟩ := one_agrees_with_many scripted ""
  have hindex : importing ∈ sectionIndexes es :=
    List.mem_cons_of_mem _ (List.mem_singleton_self importing)
  refine ⟨⟨h, hmany entity h, hambiguous _ rfl⟩, ?_⟩
  exact (hparse es rfl).2 importing hindex _ (List.mem_singleton_self _) ["a"] rfl (List.cons_ne_nil _ _)

/-- Two ways in which the errors of the readings are their own. A converter that calls what it is given
ambiguous is taken at its word, although no parse of this grammar is. And of two declarations behind an
import, one reading refuses the number and the other the import. -/
theorem one_differs_from_many :
    let converter : Converter Id := .ofConversions (fun _ => pure true)
      (fun entity => pure (.error (.unsupportedClassifier entity.classifierPath)))
      (fun _ => pure (.error (.ambiguousMetadata 7)))
    let codec : Codec Id := ⟨"pure", "pure", .modelText .pretty, converter⟩
    let text := "import a::*; Class a::B \x7b\x7d Class a::C \x7b\x7d"
    (codec.deserialize "Class a::B\x7b\x7d").run.run = .error (.ambiguousMetadata 7) ∧
      ((Format.standard.codec (m := Id)).deserialize text).run.run =
        .error (.tooManyContentElements 2) ∧
      ((Format.standard.codec (m := Id)).deserializeMany text).run.run = .error .importsUnsupported := by
  intro converter codec text
  -- All three are runs on fixed texts, and are evaluated.
  refine ⟨?_, ?_, ?_⟩
  · simp only [codec, converter]
    cbv
  · simp only [text]
    cbv
  · simp only [text]
    cbv

end ModelText
