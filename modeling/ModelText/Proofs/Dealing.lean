import ModelText.Proofs.Reformatting

/-!
# Composing loses nothing and repeats nothing

Which declarations a section gets does not depend on how they are looked for. Each path that it lists
takes the first declaration with that path which is still there (`Deals`), whatever index the sections
come from, and this is what the composer computes (`deals_iff`, `dealsAll_iff`). The text that is
composed has every declaration once and a header for every section that can import, and no other
headers (`heads_arrange`).
-/

namespace ModelText

open Grammar

/-! ### Dealing out -/

/-- What a list of paths takes out of a pool of declarations, and what remains of the pool. A path takes
the first declaration that has it, and nothing if there is none. -/
inductive Deals :
    List String → List Declaration → List Declaration → List Declaration → Prop
  | done (pool : List Declaration) : Deals [] pool [] pool
  | take {paths : List String} {d : Declaration} {before after taken rest : List Declaration} :
      (∀ e ∈ before, e.path ≠ d.path) → Deals paths (before ++ after) taken rest →
      Deals (d.path :: paths) (before ++ d :: after) (d :: taken) rest
  | miss {path : String} {paths : List String} {pool taken rest : List Declaration} :
      (∀ d ∈ pool, d.path ≠ path) → Deals paths pool taken rest →
      Deals (path :: paths) pool taken rest

/-- What sections take out of a pool one after another, and what remains of the pool. -/
inductive DealsAll :
    List Section → List Declaration → List (Section × List Declaration) → List Declaration → Prop
  | done (pool : List Declaration) : DealsAll [] pool [] pool
  | cons {s : Section} {sections : List Section} {pool taken mid rest : List Declaration}
      {groups : List (Section × List Declaration)} : Deals s.elements pool taken mid →
      DealsAll sections mid groups rest → DealsAll (s :: sections) pool ((s, taken) :: groups) rest

namespace Grammar

/-- Nothing is taken from a pool where no declaration has the path. -/
theorem takeNamed_eq_none {path : String} {pool : List Declaration} :
    takeNamed path pool = none ↔ ∀ d ∈ pool, d.path ≠ path := by
  induction pool with
  | nil => simp [takeNamed]
  | cons e pool ih =>
    rw [takeNamed, List.forall_mem_cons, ← ih]
    split
    · next he => simp [he]
    · next he => simp [he]

/-- Dealing out to one section, as a relation and as it is computed. -/
theorem deals_iff {paths : List String} {pool taken rest : List Declaration} :
    Deals paths pool taken rest ↔ claim paths pool = (taken, rest) := by
  refine ⟨fun h => ?_, fun h => ?_⟩
  · -- Forward by induction on the dealing, of which each step takes the first declaration that is named
    -- so.
    induction h with
    | done pool => rfl
    | @take paths d before after taken rest hbefore _ ih =>
      have htake : takeNamed d.path (before ++ d :: after) = some (d, before ++ after) :=
        takeNamed_eq_some.mpr ⟨before, after, rfl, rfl, rfl, hbefore⟩
      rw [claim, htake]
      dsimp only
      rw [ih]
    | @miss path paths pool taken rest hmiss _ ih =>
      rw [claim, takeNamed_eq_none.mpr hmiss]
      exact ih
  · -- Back by induction on the paths, since that is how dealing is computed.
    induction paths generalizing pool taken with
    | nil =>
      cases h
      exact .done _
    | cons path paths ih =>
      rw [claim] at h
      split at h
      · next d pool' htake =>
        cases h
        obtain ⟨before, after, rfl, rfl, rfl, hbefore⟩ := takeNamed_eq_some.mp htake
        exact .take hbefore (ih rfl)
      · next hnone => exact .miss (takeNamed_eq_none.mp hnone) (ih h)

/-- The same for all sections, each of which deals from what the one before it has left. -/
theorem dealsAll_iff {sections : List Section} {pool leading : List Declaration}
    {groups : List (Section × List Declaration)} :
    DealsAll sections pool groups leading ↔ claimAll sections pool = (groups, leading) := by
  refine ⟨fun h => ?_, fun h => ?_⟩
  · -- By induction on the sections in both directions.
    induction h with
    | done pool => rfl
    | cons hdeals _ ih =>
      rw [claimAll, deals_iff.mp hdeals]
      dsimp only
      rw [ih]
  · induction sections generalizing pool groups with
    | nil =>
      cases h
      exact .done _
    | cons s sections ih =>
      cases h
      exact .cons (deals_iff.mpr rfl) (ih rfl)

end Grammar

/-- What remains stands in the order in which it stood. -/
theorem Deals.sublist {paths : List String} {pool taken rest : List Declaration}
    (h : Deals paths pool taken rest) : rest.Sublist pool := by
  induction h with
  | done pool => exact .refl pool
  | @take _ d before after _ _ _ _ ih =>
    exact ih.trans ((List.sublist_cons_self d after).append_left before)
  | miss _ _ ih => exact ih

/-- What is left over keeps its order. -/
theorem DealsAll.sublist {sections : List Section} {pool leading : List Declaration}
    {groups : List (Section × List Declaration)} (h : DealsAll sections pool groups leading) :
    leading.Sublist pool := by
  induction h with
  | done pool => exact .refl pool
  | cons hdeals _ ih => exact ih.trans hdeals.sublist

/-! ### Heads of sections -/

/-- The name and the imports of a section that can import. -/
def Section.head? (s : Section) : Option (String × List String) :=
  s.imports?.map fun imports => (s.parserName, imports)

namespace Grammar

/-- There is a head where a section has imports, be they empty. -/
theorem heads_ne_nil_iff {sections : List Section} :
    sections.filterMap Section.head? ≠ [] ↔ ∃ s ∈ sections, s.imports?.isSome := by
  simp [Section.head?, List.filterMap_eq_nil_iff, Option.isSome_iff_ne_none]

/-- A section that is read back from a header has the name and the imports that stand there. -/
theorem head?_sectionOf_header (name : List Char) (b : Tree.Block) :
    (Tree.sectionOf (some name, b)).head? =
      some (String.ofList name, b.imports.map String.ofList) := rfl

/-- The blocks that groups become have the heads of the groups, in order. -/
theorem heads_gather (groups : List (Section × List Declaration)) :
    ((gather groups).2.map fun s => Tree.sectionOf (some s.1, s.2)).filterMap Section.head? =
      (groups.map (·.1)).filterMap Section.head? := by
  -- By induction on the groups. A plain one has no head and begins no block.
  induction groups with
  | nil => rfl
  | cons g groups ih =>
    obtain ⟨⟨name, elements, kind, source⟩, ds⟩ := g
    rw [gather, List.map_cons]
    cases kind with
    | plain => exact ih
    | importAware imports =>
      have hhead : Section.head? ⟨name, elements, .importAware imports, source⟩ =
        some (name, imports) := rfl
      dsimp only
      rw [List.map_cons, List.filterMap_cons_some (head?_sectionOf_header _ _), ih,
        List.filterMap_cons_some hhead]
      dsimp only
      rw [List.map_map, ofList_comp_toList, List.map_id, String.ofList_toList]

/-- **Heads.** The index of a composed text has the heads of the groups, in order. -/
theorem heads_arrange (leading : List Declaration) (groups : List (Section × List Declaration)) :
    (sectionsOf (arrange leading groups).index?).filterMap Section.head? =
      (groups.map (·.1)).filterMap Section.head? := by
  rw [← heads_gather]
  cases hindex : (arrange leading groups).index? with
  | none =>
    -- Without an index there is no block after a header.
    have hsections : (gather groups).2 = [] := (Tree.Document.index?_eq_none.mp hindex).1
    rw [hsections]
    rfl
  | some index =>
    -- The block in front of the first header imports nothing.
    have hleading : (Tree.sectionOf (none, (arrange leading groups).leading)).head? = none := rfl
    rw [Tree.Document.index?_eq_some hindex]
    show ((arrange leading groups).blocks.map Tree.sectionOf).filterMap Section.head? = _
    rw [Tree.Document.blocks, List.map_append, List.filterMap_append, List.map_map]
    split
    · rfl
    · rw [List.map_singleton, List.filterMap_cons_none hleading]
      rfl

/-- So it has an index if any group has a head. -/
theorem isSome_index?_arrange (leading : List Declaration)
    (groups : List (Section × List Declaration)) :
    (arrange leading groups).index?.isSome ↔
      (groups.map (·.1)).filterMap Section.head? ≠ [] := by
  rw [← heads_gather, Tree.Document.index?]
  cases hsections : (gather groups).2 with
  | nil => simp [arrange, hsections]
  | cons s ss =>
    rw [List.map_cons, List.filterMap_cons_some (head?_sectionOf_header _ _)]
    simp [arrange, hsections]

end Grammar

/-! ### Elements that can be composed -/

/-- The sections of the indexes among some elements. -/
def Element.sections (es : List Element) : List Section :=
  (Element.sectionIndexes es).flatMap (·.sections)

/-- What elements need to be composed: one index at most, and declarations and sections that can be
written. -/
structure Composable (es : List Element) : Prop where
  index : (Element.sectionIndexes es).length ≤ 1
  declarations : ∀ d ∈ Element.declarations es, d.Writable
  sections : ∀ s ∈ Element.sections es, s.Writable

namespace Grammar

/-- There is one index at most where all the indexes are those of an option. -/
theorem onlyIndex_eq_ok {es : List Element} {index : Option SectionIndex} :
    onlyIndex es = .ok index ↔ Element.sectionIndexes es = index.toList := by
  unfold onlyIndex
  split
  · next h => cases index <;> simp [h]
  · next i h => cases index <;> simp [h]
  · next hnone hone =>
    refine ⟨nofun, fun h => ?_⟩
    cases index with
    | none => exact absurd h hnone
    | some i => exact absurd h (hone i)

/-- The sections of all indexes are then those of the only one. -/
theorem sections_of_onlyIndex {es : List Element} {index : Option SectionIndex}
    (h : onlyIndex es = .ok index) : Element.sections es = sectionsOf index := by
  rw [Element.sections, onlyIndex_eq_ok.mp h]
  cases index with
  | none => rfl
  | some i => exact List.flatMap_singleton _ _

/-- Nothing else keeps elements from being composed, in either style. -/
theorem exists_compose_iff {style : RenderStyle} {es : List Element} :
    (∃ text, compose style es = .ok text) ↔ Composable es := by
  refine ⟨?_, fun h => ?_⟩
  · rintro ⟨text, h⟩
    obtain ⟨index, hindex, ⟨hdeclarations, hsections⟩, -⟩ := compose_eq_ok.mp h
    rw [← sections_of_onlyIndex hindex] at hsections
    refine ⟨?_, hdeclarations, hsections⟩
    rw [onlyIndex_eq_ok.mp hindex]
    exact Option.length_toList_le
  · -- At most one index is an option.
    obtain ⟨index, hindex⟩ : ∃ index, Element.sectionIndexes es = Option.toList index := by
      cases hes : Element.sectionIndexes es with
      | nil => exact ⟨none, rfl⟩
      | cons i more =>
        have hlength := h.index
        rw [hes, List.length_cons, Nat.succ_le_succ_iff, Nat.le_zero] at hlength
        obtain rfl := List.eq_nil_of_length_eq_zero hlength
        exact ⟨some i, rfl⟩
    have honly := onlyIndex_eq_ok.mpr hindex
    have hsections := h.sections
    rw [sections_of_onlyIndex honly] at hsections
    exact ⟨_, compose_eq_ok.mpr ⟨index, honly, ⟨h.declarations, hsections⟩, String.toList_ofList⟩⟩

end Grammar

/-- **Composing.** Elements can be composed exactly if there is at most one index and all parts can be
written. The text parses, and its declarations are those that no section takes, in the order given, and
then those that one section after another takes: all that were given, each of them once. It has an index
exactly if a given section can import, and then the sections that can are the given ones in order, with
their names and imports. -/
theorem compose_keeps_all (style : RenderStyle) (es : List Element) :
    ((∃ text, compose style es = .ok text) ↔ Composable es) ∧
      ∀ text, compose style es = .ok text → ∃ leading groups index,
        DealsAll (Element.sections es) (Element.declarations es) groups leading ∧
        parse text false =
          .ok ((leading ++ groups.flatMap (·.2)).map (Element.declaration ·.withoutSource) ++
            (index.map Element.sectionIndex).toList) ∧
        leading.Sublist (Element.declarations es) ∧
        (leading ++ groups.flatMap (·.2)).Perm (Element.declarations es) ∧
        (index.isSome ↔ ∃ s ∈ Element.sections es, s.imports?.isSome) ∧
        (sectionsOf index).filterMap Section.head? =
          (Element.sections es).filterMap Section.head? := by
  refine ⟨exists_compose_iff, fun text h => ?_⟩
  obtain ⟨index, leading, groups, hindex, hclaim, hparse⟩ := parse_of_compose h
  rw [← sections_of_onlyIndex hindex] at hclaim
  have hdeals := dealsAll_iff.mpr hclaim
  -- The text is read back to what has been dealt out; the rest is about dealing alone.
  have hperm := claimAll_perm (Element.sections es) (Element.declarations es)
  have hsections := claimAll_sections (Element.sections es) (Element.declarations es)
  rw [hclaim] at hperm hsections
  refine ⟨leading, groups, _, hdeals, hparse, hdeals.sublist, hperm, ?_, ?_⟩
  · rw [isSome_index?_arrange, hsections, heads_ne_nil_iff]
  · rw [heads_arrange, hsections]

/-- Two sections between which a path is repeated, and a path that nothing has. -/
theorem compose_keeps_all_repeated :
    let marked := Json.Object.empty.insertString "x" "\x7b"
    let es : List Element :=
      [.sectionIndex { sections :=
          [{ parserName := "Pure", elements := ["a::b", "a::x"], kind := .importAware ["a"] },
            { parserName := "Plain", elements := ["a::b", "a::b"], kind := .plain }] },
        .declaration { kind := "Data", path := "a::b", body := Json.Object.empty },
        .declaration { kind := "Data", path := "a::c", body := Json.Object.empty },
        .declaration { kind := "import", path := "a::b", body := marked }]
    ∃ text, compose .standard es = .ok text ∧ ∃ leading groups index,
      DealsAll (Element.sections es) (Element.declarations es) groups leading ∧
      parse text false =
        .ok ((leading ++ groups.flatMap (·.2)).map (Element.declaration ·.withoutSource) ++
          (index.map Element.sectionIndex).toList) ∧
      leading.Sublist (Element.declarations es) ∧
      (leading ++ groups.flatMap (·.2)).Perm (Element.declarations es) ∧
      (index.isSome ↔ ∃ s ∈ Element.sections es, s.imports?.isSome) ∧
      (sectionsOf index).filterMap Section.head? =
        (Element.sections es).filterMap Section.head? := by
  intro marked es
  have h : compose .standard es = .ok
      ("Data a::c\n\x7b\x7d\n\n###Pure\nimport a::*;\n\nData a::b\n\x7b\x7d\n\n" ++
        "import a::b\n\x7b\"x\":\"\x7b\"\x7d\n") := by
    simp only [es, marked]
    cbv
  exact ⟨_, h, (compose_keeps_all .standard es).2 _ h⟩

end ModelText
