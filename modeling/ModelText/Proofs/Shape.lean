import ModelText.Proofs.Dealing

/-!
# The shape of a parse

Without positions, a parse is a list of declarations and, behind them, at most one index. What an index
looks like beside its declarations is a property of the index alone (`SectionIndex.Shape`): its sections
list the declarations in order, and a section that cannot import is the one before the first header.
Every parse has this shape (`Tree.Document.index?_shape`), and there is no more to it: elements of this
shape can be composed, and the text parses back to just these elements (`exists_compose_of_shape`).
-/

namespace ModelText

open Grammar

/-- What an index looks like beside the declarations of its text. -/
structure SectionIndex.Shape (index : SectionIndex) (ds : List Declaration) : Prop where
  path : index.path = "__internal__::SectionIndex"
  source : ∀ s ∈ index.sections, s.source = none
  elements : index.sections.flatMap (·.elements) = ds.map (·.path)
  importAware : ∃ s ∈ index.sections, s.imports?.isSome
  plain : ∀ before s after, index.sections = before ++ s :: after → s.kind = .plain →
    before = [] ∧ s.parserName = "Pure" ∧ s.elements ≠ [] ∧
      ∃ next ∈ after.head?, next.imports?.isSome
  writable : ∀ s ∈ index.sections, s.Writable

/-- The shape of elements that are the declarations `ds` and the index, if there is one. -/
structure ParseShape (es : List Element) (ds : List Declaration) (index : Option SectionIndex) :
    Prop where
  elements : es = ds.map .declaration ++ (index.map .sectionIndex).toList
  declarations : ∀ d ∈ ds, d.Writable ∧ d.source = none
  index : ∀ i ∈ index, i.Shape ds

theorem Section.imports?_isSome {s : Section} : s.imports?.isSome ↔ s.kind ≠ .plain := by
  unfold imports?
  cases s.kind <;> simp

/-- The paths of imports are bare: valid paths have no place for a star. -/
theorem Section.Writable.star_notMem {s : Section} (h : s.Writable) {imports : List String}
    (hkind : s.kind = .importAware imports) : ∀ path ∈ imports, '*' ∉ path.toList := by
  intro path hpath
  exact (Path.isValid_iff.mp ((h imports hkind).2 path hpath)).star_notMem

/-- A first section without imports, before sections that can all import. -/
theorem SectionIndex.plain_of_cons {first next : Section} {more : List Section}
    (hname : first.parserName = "Pure") (helements : first.elements ≠ [])
    (hmore : ∀ s ∈ next :: more, s.imports?.isSome) {before after : List Section} {s : Section}
    (hsections : first :: next :: more = before ++ s :: after) (hplain : s.kind = .plain) :
    before = [] ∧ s.parserName = "Pure" ∧ s.elements ≠ [] ∧
      ∃ next ∈ after.head?, next.imports?.isSome := by
  -- Any section but the first can import, so a plain one is the first.
  cases before with
  | nil =>
    obtain ⟨rfl, rfl⟩ := List.cons.inj hsections
    exact ⟨rfl, hname, helements, next, rfl, hmore next List.mem_cons_self⟩
  | cons x before =>
    obtain ⟨-, hsections⟩ := List.cons.inj hsections
    have hs : s ∈ next :: more := hsections ▸ List.mem_append_right _ List.mem_cons_self
    exact absurd hplain (Section.imports?_isSome.mp (hmore s hs))

namespace SectionIndex.Shape

variable {index : SectionIndex} {ds : List Declaration}

theorem eq_mk (h : index.Shape ds) : index = { sections := index.sections } := by
  obtain ⟨path, sections⟩ := index
  obtain rfl := h.path
  rfl

/-- Only the first section can be without imports. -/
theorem imports?_isSome_of_mem_tail (h : index.Shape ds) {first : Section} {more : List Section}
    (hsections : index.sections = first :: more) : ∀ s ∈ more, s.imports?.isSome := by
  intro s hs
  rw [Section.imports?_isSome]
  intro hplain
  obtain ⟨before, after, rfl⟩ := List.append_of_mem hs
  obtain ⟨hnil, -⟩ := h.plain (first :: before) s after hsections hplain
  cases hnil

end SectionIndex.Shape

namespace Grammar

/-! ### Headers and imports in a text -/

/-- Whether the token begins a section: it is a header or the path of an import. -/
def Token.beginsSection : Token → Bool
  | .header _ | .importPath _ => true
  | _ => false

namespace Tree

/-- A property of all parts and of all marks is one of the whole list. -/
theorem forall_moreTokens {P : Token → Prop} {close : Char} {tss : List (List Token)}
    (hmark : ∀ c, P (.mark c)) (h : ∀ ts ∈ tss, ∀ t ∈ ts, P t) :
    ∀ t ∈ moreTokens close tss, P t := by
  induction tss with
  | nil => exact List.forall_mem_singleton.mpr (hmark close)
  | cons ts tss ih =>
    obtain ⟨hts, htss⟩ := List.forall_mem_cons.mp h
    exact List.forall_mem_cons.mpr ⟨hmark ',', List.forall_mem_append.mpr ⟨hts, ih htss⟩⟩

theorem forall_listTokens {P : Token → Prop} {close : Char} {tss : List (List Token)}
    (hmark : ∀ c, P (.mark c)) (h : ∀ ts ∈ tss, ∀ t ∈ ts, P t) :
    ∀ t ∈ listTokens close tss, P t := by
  cases tss with
  | nil => exact List.forall_mem_singleton.mpr (hmark close)
  | cons ts tss =>
    obtain ⟨hts, htss⟩ := List.forall_mem_cons.mp h
    exact List.forall_mem_append.mpr ⟨hts, forall_moreTokens hmark htss⟩

mutual

/-- No token of a value begins a section. -/
theorem Value.beginsSection_tokens : ∀ v : Value, ∀ t ∈ v.tokens, t.beginsSection = false
  | .string _ => List.forall_mem_singleton.mpr rfl
  | .number _ => List.forall_mem_singleton.mpr rfl
  | .word _ => List.forall_mem_singleton.mpr rfl
  | .array items => by
    rw [Value.tokens, itemTokens_eq]
    refine List.forall_mem_cons.mpr ⟨rfl, forall_listTokens (fun _ => rfl) ?_⟩
    exact List.forall_mem_map.mpr (beginsSection_items items)
  | .object members => by
    rw [Value.tokens, memberTokens_eq]
    refine List.forall_mem_cons.mpr ⟨rfl, forall_listTokens (fun _ => rfl) ?_⟩
    exact List.forall_mem_map.mpr (beginsSection_members members)

theorem beginsSection_items : ∀ vs : List Value, ∀ v ∈ vs, ∀ t ∈ v.tokens, t.beginsSection = false
  | [] => fun _ h => absurd h List.not_mem_nil
  | v :: vs => List.forall_mem_cons.mpr ⟨v.beginsSection_tokens, beginsSection_items vs⟩

theorem beginsSection_members : ∀ ms : List (List Char × Value), ∀ m ∈ ms,
    ∀ t ∈ oneMemberTokens m, t.beginsSection = false
  | [] => fun _ h => absurd h List.not_mem_nil
  | (_, v) :: ms => List.forall_mem_cons.mpr
      ⟨List.forall_mem_cons.mpr ⟨rfl, List.forall_mem_cons.mpr ⟨rfl, v.beginsSection_tokens⟩⟩,
        beginsSection_members ms⟩

end

/-- No token of a declaration begins a section. -/
theorem Entry.beginsSection_tokens (e : Entry) : ∀ t ∈ e.tokens, t.beginsSection = false := by
  have hbody : ∀ t ∈ memberTokens e.body, t.beginsSection = false := by
    rw [memberTokens_eq]
    exact forall_listTokens (fun _ => rfl) (List.forall_mem_map.mpr (beginsSection_members e.body))
  simpa [Entry.tokens, Token.beginsSection] using hbody

/-- A document has an index exactly if there is a header or an import among its tokens. -/
theorem Document.isSome_index?_iff {d : Document} :
    d.index?.isSome ↔
      (∃ n, Token.header n ∈ d.tokens) ∨ ∃ path, importTokens path <:+: d.tokens := by
  constructor
  · intro h
    -- Either there is a first section with its header, or a first import at the very front.
    obtain ⟨⟨imports, entries⟩, sections⟩ := d
    cases sections with
    | cons s sections =>
      refine .inl ⟨s.1, List.mem_append_right _ ?_⟩
      rw [List.flatMap_cons]
      exact List.mem_append_left _ List.mem_cons_self
    | nil =>
      cases imports with
      | cons path imports =>
        refine .inr ⟨path, List.IsPrefix.isInfix ?_⟩
        simp [Document.tokens, Block.tokens]
      | nil => cases h
  · intro h
    have hbegins : ∃ t ∈ d.tokens, t.beginsSection := by
      rcases h with ⟨n, hn⟩ | ⟨path, hpath⟩
      · exact ⟨_, hn, rfl⟩
      · exact ⟨.importPath path, hpath.subset (by simp [importTokens]), rfl⟩
    by_contra hnone
    obtain ⟨hsections, himports⟩ := index?_eq_none.mp (Option.not_isSome_iff_eq_none.mp hnone)
    obtain ⟨t, ht, hbegins⟩ := hbegins
    -- Without a section and an import the tokens are those of declarations.
    rw [Document.tokens, Block.tokens, hsections, himports, List.flatMap_nil, List.nil_append,
      List.flatMap_nil, List.append_nil] at ht
    obtain ⟨e, -, hte⟩ := List.mem_flatMap.mp ht
    rw [e.beginsSection_tokens t hte] at hbegins
    cases hbegins

/-! ### Parses have the shape -/

/-- The sections of a document list its declarations in order. -/
theorem Document.elements_sections {d : Document} {ds : List Declaration}
    (h : List.Forall₂ Entry.Means d.entries ds) :
    (d.blocks.map sectionOf).flatMap (·.elements) = ds.map (·.path) := by
  rw [← paths_of_means h, ← d.entries_blocks, List.map_flatMap, List.flatMap_map]
  rfl

/-- The index of a document has its shape beside the declarations that the document means. -/
theorem Document.index?_shape {d : Document} {ds : List Declaration}
    (hmeans : List.Forall₂ Entry.Means d.entries ds) (hspelled : AllSpelled d.tokens)
    {index : SectionIndex} (h : d.index? = some index) : index.Shape ds := by
  obtain ⟨bs, hbs, hheads, hblocks⟩ := blocks_cases (d := d) (by rw [h]; rfl)
  have hwritable := sections_writable hspelled
  have helements := d.elements_sections hmeans
  rw [h] at hwritable
  obtain rfl := d.index?_eq_some h
  obtain ⟨b, bs, rfl⟩ := List.exists_cons_of_ne_nil hbs
  have hmore : ∀ s ∈ (b :: bs).map sectionOf, s.imports?.isSome := List.forall_mem_map.mpr hheads
  refine ⟨rfl, ?_, helements, ?_, ?_, hwritable⟩
  · exact List.forall_mem_map.mpr fun _ _ => rfl
  · refine ⟨sectionOf b, List.mem_map_of_mem ?_, hheads b List.mem_cons_self⟩
    -- The sections are the blocks, with or without the one in front of the first header.
    rcases hblocks with hblocks | ⟨-, -, hblocks⟩
    · rw [hblocks]
      exact List.mem_cons_self
    · rw [hblocks]
      exact List.mem_cons_of_mem _ List.mem_cons_self
  · intro before s after hsections hplain
    dsimp only at hsections
    rcases hblocks with hblocks | ⟨-, hentries, hblocks⟩
    · rw [hblocks] at hsections
      have hs : s ∈ (b :: bs).map sectionOf :=
        hsections ▸ List.mem_append_right _ List.mem_cons_self
      exact absurd hplain (Section.imports?_isSome.mp (hmore s hs))
    · -- The one section without imports is the block in front of the first header.
      rw [hblocks] at hsections
      have helements : (sectionOf (none, d.leading)).elements ≠ [] := by
        simpa [sectionOf] using hentries
      exact SectionIndex.plain_of_cons rfl helements hmore hsections hplain

end Tree

/-! ### Texts of the shape -/

/-- Sections that list the paths of declarations in order divide the declarations among them. -/
theorem exists_own {sections : List Section} {ds : List Declaration}
    (h : sections.flatMap (·.elements) = ds.map (·.path)) (hsource : ∀ s ∈ sections, s.source = none) :
    ∃ groups : List (Section × List Declaration), groups.map (·.1) = sections ∧
      groups.flatMap (·.2) = ds ∧ ∀ g ∈ groups, Own g := by
  -- By induction on the sections: the first takes the declarations whose paths it lists.
  induction sections generalizing ds with
  | nil =>
    obtain rfl := List.map_eq_nil_iff.mp h.symm
    exact ⟨[], rfl, rfl, by simp⟩
  | cons s sections ih =>
    rw [List.flatMap_cons] at h
    obtain ⟨taken, more, rfl, htaken, hmore⟩ := List.map_eq_append_iff.mp h.symm
    obtain ⟨hs, hsource⟩ := List.forall_mem_cons.mp hsource
    obtain ⟨groups, hsections, hdeclarations, hown⟩ := ih hmore.symm hsource
    refine ⟨(s, taken) :: groups, ?_, ?_, List.forall_mem_cons.mpr ⟨⟨htaken.symm, hs⟩, hown⟩⟩
    · rw [List.map_cons, hsections]
    · rw [List.flatMap_cons, hdeclarations]

/-- A section without imports under the default name is that of the block which its declarations
make. -/
theorem eq_sectionOf_of_plain {s : Section} {ds : List Declaration} (h : Own (s, ds))
    (hplain : s.kind = .plain) (hname : s.parserName = "Pure") :
    s = Tree.sectionOf (none, ⟨[], ds.map Declaration.tree⟩) := by
  obtain ⟨helements, hsource⟩ := h
  obtain ⟨name, elements, kind, source⟩ := s
  dsimp only at helements hsource hplain hname
  subst helements hsource hplain hname
  rw [← paths_trees]
  rfl

/-- Sections of the shape, arranged with their own declarations, give their index again. -/
theorem index?_arrange_of_shape {index : SectionIndex} {ds : List Declaration} (h : index.Shape ds)
    {groups : List (Section × List Declaration)} (hown : ∀ g ∈ groups, Own g)
    (hsections : groups.map (·.1) = index.sections) :
    (arrange [] groups).index? = some index := by
  rw [h.eq_mk, ← hsections]
  obtain _ | ⟨⟨s, taken⟩, groups⟩ := groups
  · -- Without sections there would be none that can import.
    obtain ⟨s, hs, -⟩ := h.importAware
    rw [← hsections] at hs
    cases hs
  · have hmore := h.imports?_isSome_of_mem_tail hsections.symm
    rw [List.forall_mem_map] at hmore
    by_cases hplain : s.kind = .plain
    · -- The first section has no header, so it is the block in front of the first one.
      obtain ⟨-, hname, helements, next, hnext, -⟩ := h.plain [] s _ hsections.symm hplain
      obtain ⟨hown, hrest⟩ := List.forall_mem_cons.mp hown
      have hne : groups ≠ [] := by
        rintro rfl
        cases hnext
      have htaken : taken ≠ [] := by
        rintro rfl
        exact helements hown.elements
      rw [eq_sectionOf_of_plain hown hplain hname]
      refine arrange_leading rfl htaken ?_ hne hrest hmore
      rw [← eq_sectionOf_of_plain hown hplain hname]
      exact hown.elements
    · have hfirst := Section.imports?_isSome.mpr hplain
      exact arrange_heads (List.cons_ne_nil _ _) hown (List.forall_mem_cons.mpr ⟨hfirst, hmore⟩)

/-- Elements of the shape can be composed, and the text parses back to them. -/
theorem exists_compose_of_shape (style : RenderStyle) {es : List Element} {ds : List Declaration}
    {index : Option SectionIndex} (h : ParseShape es ds index) :
    ∃ text, compose style es = .ok text ∧ parse text false = .ok es := by
  obtain ⟨rfl, hds, hindex⟩ := h
  cases index with
  | none =>
    -- No section claims anything, and all declarations come in front.
    exact exists_compose_of_claimAll style hds nofun rfl (List.append_nil ds) rfl
  | some index =>
    have hshape := hindex index rfl
    obtain ⟨groups, hsections, rfl, hown⟩ := exists_own hshape.elements hshape.source
    have hclaim := claimAll_append (fun g hg => (hown g hg).elements) []
    rw [List.append_nil, hsections] at hclaim
    exact exists_compose_of_claimAll style hds hshape.writable hclaim rfl
      (index?_arrange_of_shape hshape hown hsections)

/-- **The shape of a parse.** Without positions, every parse is a list of declarations and then at most
one index. The declarations can be written, so that each has an identifier for its kind, a valid path and
a body within the limit. There is an index exactly if the text has a header or an import, and it has its
shape beside the declarations: its sections list their paths in order, at least one section can import,
and only the first may be one that cannot, which is then called `Pure`, holds something and is followed
by a header. The sections that can import have identifiers for names and valid paths for imports, which
are those of the text without their stars. No more can be said: all elements of this shape are the parse
of a text. -/
theorem parse_has_shape (es : List Element) :
    (∀ text, parse text false = .ok es → ∃ ds index, ParseShape es ds index ∧
      (∃ d : Tree.Document, d.Derives text.toList ∧
        (index.isSome ↔
          (∃ n, Token.header n ∈ d.tokens) ∨ ∃ path, Tree.importTokens path <:+: d.tokens)) ∧
      ∀ s ∈ sectionsOf index, ∀ imports, s.kind = .importAware imports →
        ∀ path ∈ imports, '*' ∉ path.toList) ∧
    ((∃ ds index, ParseShape es ds index) → ∃ text, parse text false = .ok es) := by
  refine ⟨fun text h => ?_, fun ⟨ds, index, h⟩ => ?_⟩
  · have hwritable := writable_of_parse h
    obtain ⟨d, hderives, -, ds, hmeans, rfl⟩ := parse_eq_ok.mp h
    rw [declarations_append_index] at hwritable
    have hspelled := hderives.lexes.allSpelled
    refine ⟨ds, d.index?, ⟨rfl, hwritable, fun i hi => d.index?_shape hmeans hspelled hi⟩,
      ⟨d, hderives, d.isSome_index?_iff⟩, fun s hs imports hkind => ?_⟩
    exact (sections_writable hspelled s hs).star_notMem hkind
  · obtain ⟨text, -, hparse⟩ := exists_compose_of_shape .standard h
    exact ⟨text, hparse⟩

/-- A declaration in front of a header that imports, and a last header without anything. -/
theorem parse_has_shape_front :
    let ds : List Declaration :=
      [{ kind := "Data", path := "a::b", body := Json.Object.empty },
        { kind := "import", path := "a::b", body := Json.Object.empty.insertString "x" "*/" }]
    let index : SectionIndex := { sections :=
      [{ parserName := "Pure", elements := ["a::b"], kind := .plain },
        { parserName := "Data", elements := ["a::b"], kind := .importAware ["a", "a::b"] },
        { parserName := "_1", elements := [], kind := .importAware [] }] }
    let es := ds.map Element.declaration ++ [.sectionIndex index]
    ParseShape es ds (some index) ∧ ∃ text, parse text false = .ok es := by
  intro ds index es
  have hwritable : ∀ d ∈ ds, d.Writable ∧ d.source = none := by
    refine List.forall_mem_cons.mpr ⟨⟨⟨by decide, by decide, by decide⟩, rfl⟩, ?_⟩
    refine List.forall_mem_singleton.mpr ⟨⟨by decide, by decide, ?_⟩, rfl⟩
    cbv
  have hmore : ∀ s ∈ index.sections.tail, s.imports?.isSome := by decide
  have hidentifiers : ∀ s ∈ index.sections, s.Writable := by
    refine List.forall_mem_cons.mpr ⟨?_, List.forall_mem_cons.mpr ⟨?_, ?_⟩⟩
    · rintro _ ⟨⟩
    · rintro _ ⟨⟩
      decide
    · refine List.forall_mem_singleton.mpr ?_
      rintro _ ⟨⟩
      decide
  have hshape : ParseShape es ds (some index) := by
    refine ⟨rfl, hwritable, ?_⟩
    rintro _ ⟨⟩
    refine ⟨rfl, by decide, rfl, ⟨_, List.mem_cons_of_mem _ List.mem_cons_self, rfl⟩, ?_,
      hidentifiers⟩
    exact fun _ _ _ => SectionIndex.plain_of_cons rfl (List.cons_ne_nil _ _) hmore
  exact ⟨hshape, (parse_has_shape es).2 ⟨ds, some index, hshape⟩⟩

end Grammar

end ModelText
