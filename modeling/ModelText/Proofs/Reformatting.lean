import Mathlib
import ModelText.Proofs.Arrangement

/-!
# Reformatting

What the parser returns can be composed in either style, and the composed text parses back to it
(`exists_compose`). A parse lists the paths of its declarations section by section in the order in
which they stand, so every section claims its own declarations, with repeated paths or without, and
none remain (`claimAll_append`). What changes is the form of the first section: if it imports without a
header, it is written under a header with the name that it has by default.
-/

namespace ModelText

open Grammar

namespace Json

/-! ### Depth -/

/-- Members are within a depth if each value is. -/
theorem depthMembers_le_iff {ms : List (String × Json)} {n : Nat} :
    depthMembers ms ≤ n ↔ ∀ m ∈ ms, m.2.depth ≤ n := by
  rw [depthMembers_eq, depthItems_le_iff, List.forall_mem_map]

/-- Inserting members adds no others. -/
theorem mem_insertMembers {new ms : List (String × Json)} {m : String × Json}
    (h : m ∈ insertMembers new ms) : m ∈ new ∨ m ∈ ms := by
  -- By induction on the new members.
  induction new generalizing ms with
  | nil => exact .inr h
  | cons n new ih =>
    rcases ih h with h | h
    · exact .inl (List.mem_cons_of_mem n h)
    · rcases mem_insertMember h with rfl | h
      · exact .inl List.mem_cons_self
      · exact .inr h

/-- Members that are set again only make an object less deep. -/
theorem depthMembers_insertMembers_le (ms : List (String × Json)) :
    depthMembers (insertMembers ms []) ≤ depthMembers ms := by
  refine depthMembers_le_iff.mpr fun m hm => ?_
  rcases mem_insertMembers hm with h | h
  · exact depthMembers_le_iff.mp (Nat.le_refl _) m h
  · cases h

end Json

namespace Grammar

namespace Tree

mutual

/-- What a tree means is no deeper than the tree. -/
theorem Value.Means.depth_le : ∀ (v : Value) {j : Json}, v.Means j → j.depth ≤ v.depth
  | .string _, _, h => by
    obtain ⟨s, -, rfl⟩ := h
    exact Nat.le_refl _
  | .number _, _, h => by
    obtain ⟨n, -, rfl⟩ := h
    exact Nat.le_refl _
  | .word _, _, h => by
    rcases h with _ | _ | _ <;> exact Nat.le_refl _
  | .array items, _, h => by
    obtain ⟨js, hjs, rfl⟩ := h
    exact Nat.succ_le_succ (ItemsMean.depth_le items hjs)
  | .object members, _, h => by
    -- Putting members in order may lose some, but adds none.
    obtain ⟨ms, hms, rfl⟩ := h
    exact Nat.succ_le_succ
      (Nat.le_trans (Json.depthMembers_insertMembers_le ms) (MembersMean.depth_le members hms))

/-- Items mean no more levels than they have. -/
theorem ItemsMean.depth_le : ∀ (vs : List Value) {js : List Json}, ItemsMean vs js →
    Json.depthItems js ≤ itemsDepth vs
  | [], _, h => by
    cases h
    exact Nat.le_refl _
  | v :: vs, _, h => by
    obtain ⟨j, js, hj, hjs, rfl⟩ := h
    have hfirst := Value.Means.depth_le v hj
    have hmore := ItemsMean.depth_le vs hjs
    rw [Json.depthItems, itemsDepth]
    omega

/-- Neither do members, of which some may be lost to others of the same name. -/
theorem MembersMean.depth_le : ∀ (vs : List (List Char × Value)) {ms : List (String × Json)},
    MembersMean vs ms → Json.depthMembers ms ≤ membersDepth vs
  | [], _, h => by
    cases h
    exact Nat.le_refl _
  | (_, v) :: vs, _, h => by
    obtain ⟨s, j, ms, -, hj, hms, rfl⟩ := h
    have hfirst := Value.Means.depth_le v hj
    have hmore := MembersMean.depth_le vs hms
    rw [Json.depthMembers, membersDepth]
    omega

end

/-! ### Parses can be written -/

/-- A declaration that a derivation means can be written. -/
theorem Entry.Means.writable {e : Entry} {d : Declaration} (h : e.Means d)
    (hkind : Path.isWord e.kind) (hpath : IsName e.path) (hdepth : e.depth ≤ maxDepth) :
    d.Writable := by
  obtain ⟨hk, hp, ⟨ms, hms, hmembers⟩, -⟩ := h
  refine ⟨?_, ?_, Nat.le_trans ?_ hdepth⟩
  · rw [hk, Path.isIdentifier_ofList, hkind]
  · rw [hp, Path.isValid_ofList]
    exact hpath
  · rw [Json.Object.toJson, Json.depth, hmembers]
    exact Nat.succ_le_succ
      (Nat.le_trans (Json.depthMembers_insertMembers_le ms) (MembersMean.depth_le e.body hms))

/-- The path of an entry that is spelled is a name. -/
theorem AllSpelled.entry {e : Entry} (h : AllSpelled e.tokens) : IsName e.path := by
  obtain ⟨w, hw⟩ := h (.name e.path) (List.mem_cons_of_mem _ List.mem_cons_self)
  cases hw with
  | name hname => exact hname

/-- So is each import of a block. -/
theorem AllSpelled.imports {b : Block} (h : AllSpelled b.tokens) : ∀ path ∈ b.imports, IsName path := by
  intro path hpath
  obtain ⟨w, hw⟩ := h (.importPath path) (List.mem_append_left _
    (List.mem_flatMap.mpr ⟨path, hpath, by simp [importTokens]⟩))
  cases hw with
  | importPath hname => exact hname

/-- A section that a block means can be written. -/
theorem sectionOf_writable {b : Option (List Char) × Block} (hname : ∀ n ∈ b.1, Path.isWord n)
    (hspelled : AllSpelled b.2.tokens) : (sectionOf b).Writable := by
  obtain ⟨header, block⟩ := b
  intro imports hkind
  unfold sectionOf at hkind ⊢
  dsimp only at hkind ⊢
  split at hkind
  · cases hkind
  · cases hkind
    constructor
    · cases header with
      | none => decide
      | some n =>
        rw [Option.map_some, Option.getD_some, Path.isIdentifier_ofList]
        exact hname n rfl
    · rw [List.forall_mem_map]
      exact fun path hpath => Path.isValid_ofList.mpr (hspelled.imports path hpath)

/-- The header of a block that is spelled is a word. -/
theorem AllSpelled.blocks {d : Document} (h : AllSpelled d.tokens) :
    ∀ b ∈ d.blocks, (∀ n ∈ b.1, Path.isWord n) ∧ AllSpelled b.2.tokens := by
  intro b hb
  unfold Document.blocks at hb
  rcases List.mem_append.mp hb with hb | hb
  · split at hb
    · cases hb
    · obtain rfl := List.mem_singleton.mp hb
      exact ⟨by simp, fun t ht => h t (List.mem_append_left _ ht)⟩
  · obtain ⟨s, hs, rfl⟩ := List.mem_map.mp hb
    have hsection : ∀ t ∈ sectionTokens s, ∃ w, t.Spelled w := fun t ht =>
      h t (List.mem_append_right _ (List.mem_flatMap.mpr ⟨s, hs, ht⟩))
    refine ⟨?_, fun t ht => hsection t (List.mem_cons_of_mem _ ht)⟩
    rintro _ ⟨⟩
    obtain ⟨w, hw⟩ := hsection _ List.mem_cons_self
    cases hw with
    | header hname => exact hname

/-- The index of a document lists its blocks. -/
theorem Document.index?_eq_some {d : Document} {index : SectionIndex} (h : d.index? = some index) :
    index = { sections := d.blocks.map sectionOf } := by
  unfold index? at h
  split at h
  · cases h
  · exact (Option.some.inj h).symm

/-- Without an index there is no header and no import. -/
theorem Document.index?_eq_none {d : Document} :
    d.index? = none ↔ d.sections = [] ∧ d.leading.imports = [] := by
  unfold index?
  split
  · next hempty => simpa using hempty
  · next hempty => simpa using hempty

/-- The blocks have all entries: the leading one is left out only if it has none. -/
theorem Document.entries_blocks (d : Document) : d.blocks.flatMap (·.2.entries) = d.entries := by
  unfold blocks entries
  rw [List.flatMap_append, List.flatMap_map]
  congr 1
  split
  · next hempty =>
    simp only [Bool.and_eq_true, List.isEmpty_iff] at hempty
    rw [hempty.1]
    rfl
  · simp

end Tree

/-! ### Sections claim their own -/

/-- Declarations take themselves out of a pool that begins with them. -/
theorem claim_append (ds pool : List Declaration) :
    claim (ds.map (·.path)) (ds ++ pool) = (ds, pool) := by
  induction ds with
  | nil => rfl
  | cons d ds ih =>
    have htake : takeNamed d.path (d :: (ds ++ pool)) = some (d, ds ++ pool) := by
      rw [takeNamed, if_pos rfl]
    rw [List.map_cons, List.cons_append, claim, htake]
    dsimp only
    rw [ih]

/-- **Claiming.** Sections that list the declarations in order claim just their own. -/
theorem claimAll_append {groups : List (Section × List Declaration)}
    (h : ∀ g ∈ groups, g.1.elements = g.2.map (·.path)) (pool : List Declaration) :
    claimAll (groups.map (·.1)) (groups.flatMap (·.2) ++ pool) = (groups, pool) := by
  induction groups with
  | nil => rfl
  | cons g groups ih =>
    obtain ⟨hg, hgroups⟩ := List.forall_mem_cons.mp h
    rw [List.map_cons, List.flatMap_cons, List.append_assoc, claimAll, hg, claim_append]
    dsimp only
    rw [ih hgroups]

/-! ### Sections and their declarations -/

/-- The group of a section is its own: the section lists the paths of the declarations and has no
position. -/
structure Own (g : Section × List Declaration) : Prop where
  elements : g.1.elements = g.2.map (·.path)
  source : g.1.source = none

/-- What entries mean has their paths. -/
theorem paths_of_means {es : List Tree.Entry} {ds : List Declaration}
    (h : List.Forall₂ Tree.Entry.Means es ds) :
    (es.map fun e => String.ofList e.path) = ds.map (·.path) :=
  map_eq_map_of_forall₂ (h.imp fun _ _ hd => hd.path.symm)

/-- The declarations of blocks, block by block with the sections that the blocks mean. -/
theorem exists_groups {bs : List (Option (List Char) × Tree.Block)} {ds : List Declaration}
    (h : List.Forall₂ Tree.Entry.Means (bs.flatMap (·.2.entries)) ds) :
    ∃ groups : List (Section × List Declaration), groups.map (·.1) = bs.map Tree.sectionOf ∧
      groups.flatMap (·.2) = ds ∧ ∀ g ∈ groups, Own g := by
  -- By induction on the blocks: the first takes as many declarations as it has entries.
  induction bs generalizing ds with
  | nil =>
    cases h
    exact ⟨[], rfl, rfl, by simp⟩
  | cons b bs ih =>
    rw [List.flatMap_cons] at h
    have hfirst := List.forall₂_take_append ds b.2.entries _ h.flip
    have hmore := List.forall₂_drop_append ds b.2.entries _ h.flip
    obtain ⟨groups, hsections, hdeclarations, hown⟩ := ih hmore.flip
    have hpaths : (Tree.sectionOf b).elements = (ds.take b.2.entries.length).map (·.path) :=
      paths_of_means hfirst.flip
    refine ⟨(Tree.sectionOf b, ds.take b.2.entries.length) :: groups, ?_, ?_, ?_⟩
    · rw [List.map_cons, List.map_cons, hsections]
    · rw [List.flatMap_cons, hdeclarations, List.take_append_drop]
    · exact List.forall_mem_cons.mpr ⟨⟨hpaths, rfl⟩, hown⟩

/-- A string is made of its characters. -/
theorem ofList_comp_toList : String.ofList ∘ String.toList = id :=
  funext fun _ => String.ofList_toList

/-- The trees of declarations have their paths. -/
theorem paths_trees (ds : List Declaration) :
    ((ds.map Declaration.tree).map fun e => String.ofList e.path) = ds.map (·.path) := by
  rw [List.map_map]
  exact List.map_congr_left fun d _ => String.ofList_toList

/-- Groups that all have a head become blocks after headers, which mean their sections again. -/
theorem gather_of_heads {groups : List (Section × List Declaration)} (hown : ∀ g ∈ groups, Own g)
    (hheads : ∀ g ∈ groups, g.1.imports?.isSome) :
    (gather groups).1 = [] ∧
      (gather groups).2.map (fun s => Tree.sectionOf (some s.1, s.2)) = groups.map (·.1) := by
  -- By induction on the groups.
  induction groups with
  | nil => exact ⟨rfl, rfl⟩
  | cons g groups ih =>
    obtain ⟨⟨helements, hsource⟩, hown⟩ := List.forall_mem_cons.mp hown
    obtain ⟨hhead, hheads⟩ := List.forall_mem_cons.mp hheads
    obtain ⟨hfront, hblocks⟩ := ih hown hheads
    obtain ⟨⟨name, elements, kind, source⟩, ds⟩ := g
    cases kind with
    | plain => cases hhead
    | importAware imports =>
      dsimp only at helements hsource
      subst helements hsource
      refine ⟨rfl, ?_⟩
      rw [gather]
      dsimp only
      rw [List.map_cons, hblocks, hfront, List.append_nil, Tree.sectionOf]
      dsimp only
      rw [paths_trees, List.map_map, ofList_comp_toList, List.map_id, Option.map_some,
        Option.getD_some, String.ofList_toList]
      rfl

/-- The blocks of a document with an index all have a head, except for a first block that comes
before all headers and imports nothing. -/
theorem blocks_cases {d : Tree.Document} (h : d.index?.isSome) :
    ∃ bs : List (Option (List Char) × Tree.Block), bs ≠ [] ∧
      (∀ b ∈ bs, (Tree.sectionOf b).imports?.isSome) ∧
      (d.blocks = bs ∨
        d.leading.imports = [] ∧ d.leading.entries ≠ [] ∧ d.blocks = (none, d.leading) :: bs) := by
  obtain ⟨⟨imports, entries⟩, sections⟩ := d
  have hheaded : ∀ b ∈ sections.map fun s => (some s.1, s.2),
      (Tree.sectionOf b).imports?.isSome := by
    intro b hb
    obtain ⟨s, -, rfl⟩ := List.mem_map.mp hb
    rfl
  -- Imports in front are a head of their own. Without them the leading block has none.
  cases imports with
  | cons path imports =>
    refine ⟨(none, ⟨path :: imports, entries⟩) :: sections.map fun s => (some s.1, s.2), by simp,
      List.forall_mem_cons.mpr ⟨rfl, hheaded⟩, .inl ?_⟩
    simp [Tree.Document.blocks]
  | nil =>
    have hsections : sections ≠ [] := by
      rintro rfl
      cases h
    refine ⟨sections.map fun s => (some s.1, s.2), by simpa using hsections, hheaded, ?_⟩
    cases entries with
    | nil => exact .inl (by simp [Tree.Document.blocks])
    | cons e entries => exact .inr ⟨rfl, by simp, by simp [Tree.Document.blocks]⟩

/-- So if all groups have heads, they are what the index lists. -/
theorem arrange_heads {groups : List (Section × List Declaration)} (hne : groups ≠ [])
    (hown : ∀ g ∈ groups, Own g) (hheads : ∀ g ∈ groups, g.1.imports?.isSome) :
    (arrange [] groups).index? = some { sections := groups.map (·.1) } := by
  obtain ⟨hfront, hgather⟩ := gather_of_heads hown hheads
  have hsections : (gather groups).2 ≠ [] := by
    intro hnil
    rw [hnil] at hgather
    exact hne (List.map_eq_nil_iff.mp hgather.symm)
  rw [← hgather]
  simp [arrange, Tree.Document.index?, Tree.Document.blocks, hfront, hsections]

/-- A first section without a head becomes the block before the first header. -/
theorem arrange_leading {b : Tree.Block} (himports : b.imports = []) {ds : List Declaration}
    (hds : ds ≠ []) (helements : (Tree.sectionOf (none, b)).elements = ds.map (·.path))
    {groups : List (Section × List Declaration)} (hne : groups ≠ [])
    (hown : ∀ g ∈ groups, Own g) (hheads : ∀ g ∈ groups, g.1.imports?.isSome) :
    (arrange [] ((Tree.sectionOf (none, b), ds) :: groups)).index? =
      some { sections := Tree.sectionOf (none, b) :: groups.map (·.1) } := by
  obtain ⟨hfront, hgather⟩ := gather_of_heads hown hheads
  have hsections : (gather groups).2 ≠ [] := by
    intro hnil
    rw [hnil] at hgather
    exact hne (List.map_eq_nil_iff.mp hgather.symm)
  have hplain : Tree.sectionOf (none, b) =
      { parserName := "Pure", elements := ds.map (·.path), kind := .plain } := by
    rw [← helements]
    simp [Tree.sectionOf, himports]
  rw [← hgather, hplain]
  have hfirst : Tree.sectionOf (none, ⟨[], ds.map Declaration.tree⟩) =
      { parserName := "Pure", elements := ds.map (·.path), kind := .plain } := by
    rw [← paths_trees]
    rfl
  simp [arrange, gather, Tree.Document.index?, Tree.Document.blocks, hfront, hsections, hds, hfirst]

/-- Arranging the sections of an index with their declarations gives the index again. -/
theorem index?_arrange {d : Tree.Document} {index : SectionIndex} (h : d.index? = some index)
    {groups : List (Section × List Declaration)} (hown : ∀ g ∈ groups, Own g)
    (hsections : groups.map (·.1) = d.blocks.map Tree.sectionOf) :
    (arrange [] groups).index? = some index := by
  have hindex := d.index?_eq_some h
  obtain ⟨bs, hbs, hall, hblocks⟩ := blocks_cases (d := d) (by rw [h]; rfl)
  have hheads : ∀ s ∈ bs.map Tree.sectionOf, s.imports?.isSome := List.forall_mem_map.mpr hall
  -- All blocks have heads, or the leading one has not.
  rcases hblocks with hblocks | ⟨himports, hentries, hblocks⟩
  · rw [hblocks] at hsections hindex
    rw [← hsections] at hheads hindex
    have hne : groups ≠ [] := by
      rintro rfl
      exact hbs (List.map_eq_nil_iff.mp hsections.symm)
    rw [hindex]
    exact arrange_heads hne hown (by rwa [List.forall_mem_map] at hheads)
  · rw [hblocks] at hsections hindex
    obtain _ | ⟨⟨s, ds⟩, groups⟩ := groups
    · cases hsections
    · obtain ⟨rfl, hmap⟩ := List.cons.inj hsections
      obtain ⟨⟨helements, -⟩, hown⟩ := List.forall_mem_cons.mp hown
      rw [← hmap] at hheads
      have hne : groups ≠ [] := by
        rintro rfl
        exact hbs (List.map_eq_nil_iff.mp hmap.symm)
      have hds : ds ≠ [] := by
        rintro rfl
        exact hentries (List.map_eq_nil_iff.mp helements)
      rw [hindex, List.map_cons, ← hmap]
      exact arrange_leading himports hds helements hne hown (by rwa [List.forall_mem_map] at hheads)

end Grammar

/-! ### Composing a parse -/

theorem Element.declarations_append (es fs : List Element) :
    declarations (es ++ fs) = declarations es ++ declarations fs :=
  List.filterMap_append

/-- Among declarations all are found. -/
theorem Element.declarations_map (ds : List Declaration) :
    declarations (ds.map .declaration) = ds := by
  rw [declarations, List.filterMap_map]
  exact List.filterMap_some

theorem Element.sectionIndexes_append (es fs : List Element) :
    sectionIndexes (es ++ fs) = sectionIndexes es ++ sectionIndexes fs :=
  List.filterMap_append

/-- No index is among declarations. -/
theorem Element.sectionIndexes_map (ds : List Declaration) :
    sectionIndexes (ds.map .declaration) = [] := by
  rw [sectionIndexes, List.filterMap_map]
  exact List.filterMap_eq_nil_iff.mpr fun _ _ => rfl

namespace Grammar

/-- A parse is declarations and then an index, so its declarations can be found again. -/
theorem declarations_append_index (ds : List Declaration) (index : Option SectionIndex) :
    Element.declarations (ds.map .declaration ++ (index.map .sectionIndex).toList) = ds := by
  rw [Element.declarations_append, Element.declarations_map]
  cases index <;> exact List.append_nil ds

/-- So can its index. -/
theorem sectionIndexes_append_index (ds : List Declaration) (index : Option SectionIndex) :
    Element.sectionIndexes (ds.map .declaration ++ (index.map .sectionIndex).toList) =
      index.toList := by
  rw [Element.sectionIndexes_append, Element.sectionIndexes_map]
  cases index <;> rfl

/-- There is no other index in a parse. -/
theorem onlyIndex_append_index (ds : List Declaration) (index : Option SectionIndex) :
    onlyIndex (ds.map .declaration ++ (index.map .sectionIndex).toList) = .ok index := by
  rw [onlyIndex, sectionIndexes_append_index]
  cases index <;> rfl

/-- Where no source is kept there is none to take away. -/
theorem map_withoutSource {ds : List Declaration} (h : ∀ d ∈ ds, d.source = none) :
    ds.map (Element.declaration ·.withoutSource) = ds.map Element.declaration := by
  refine List.map_congr_left fun d hd => ?_
  have hsource := h d hd
  obtain ⟨kind, path, body, source⟩ := d
  cases hsource
  rfl

/-- The declarations that entries mean can be written, and have no position. -/
theorem declarations_writable {es : List Tree.Entry} {ds : List Declaration}
    (h : List.Forall₂ Tree.Entry.Means es ds)
    (hes : ∀ e ∈ es, Path.isWord e.kind ∧ Tree.AllSpelled e.tokens ∧ e.depth ≤ maxDepth) :
    ∀ d ∈ ds, d.Writable ∧ d.source = none := by
  induction h with
  | nil => simp
  | cons hd _ ih =>
    obtain ⟨⟨hkind, hspelled, hdepth⟩, hes⟩ := List.forall_mem_cons.mp hes
    refine List.forall_mem_cons.mpr ⟨⟨?_, hd.source⟩, ih hes⟩
    exact hd.writable hkind hspelled.entry hdepth

/-- The declarations of a parse can be written, and have no position. -/
theorem writable_of_parse {text : String} {es : List Element} (h : parse text false = .ok es) :
    ∀ d ∈ Element.declarations es, d.Writable ∧ d.source = none := by
  obtain ⟨d, hderives, hdepth, ds, hds, rfl⟩ := parse_eq_ok.mp h
  have hspelled := AllSpelled.entries hderives.lexes.allSpelled
  rw [declarations_append_index]
  exact declarations_writable hds fun e he => ⟨hderives.kinds e he, hspelled e he, hdepth e he⟩

/-- The sections of an index that a document means can be written. -/
theorem sections_writable {d : Tree.Document} (h : Tree.AllSpelled d.tokens) :
    ∀ s ∈ sectionsOf d.index?, s.Writable := by
  intro s hs
  cases hindex : d.index? with
  | none =>
    rw [hindex] at hs
    cases hs
  | some index =>
    rw [hindex, d.index?_eq_some hindex] at hs
    obtain ⟨b, hb, rfl⟩ := List.mem_map.mp hs
    obtain ⟨hname, hspelled⟩ := h.blocks b hb
    exact Tree.sectionOf_writable hname hspelled

/-- The declarations that a document means are claimed so that they are written in order, and that
the text has the same index. -/
theorem claimAll_index {d : Tree.Document} {ds : List Declaration}
    (h : List.Forall₂ Tree.Entry.Means d.entries ds) :
    ∃ leading groups, claimAll (sectionsOf d.index?) ds = (groups, leading) ∧
      leading ++ groups.flatMap (·.2) = ds ∧ (arrange leading groups).index? = d.index? := by
  cases hcase : d.index? with
  | none =>
    -- Without an index no section claims anything, and the text has no header and no import.
    exact ⟨ds, [], rfl, List.append_nil ds, rfl⟩
  | some index =>
    obtain ⟨groups, hmap, rfl, hown⟩ := exists_groups (d.entries_blocks ▸ h)
    have hclaimed := claimAll_append (fun g hg => (hown g hg).elements) []
    rw [List.append_nil, hmap] at hclaimed
    refine ⟨[], groups, ?_, rfl, index?_arrange hcase hown hmap⟩
    rw [d.index?_eq_some hcase]
    exact hclaimed

/-- Declarations under an index are composed to a text that parses back to them, if the sections claim
them so that they are written in order, and the text has the index again. -/
theorem exists_compose_of_claimAll (style : RenderStyle) {ds leading : List Declaration}
    {index : Option SectionIndex} {groups : List (Section × List Declaration)}
    (hds : ∀ d ∈ ds, d.Writable ∧ d.source = none) (hsections : ∀ s ∈ sectionsOf index, s.Writable)
    (hclaim : claimAll (sectionsOf index) ds = (groups, leading))
    (horder : leading ++ groups.flatMap (·.2) = ds)
    (hindex : (arrange leading groups).index? = index) :
    ∃ text, compose style (ds.map .declaration ++ (index.map .sectionIndex).toList) = .ok text ∧
      parse text false = .ok (ds.map .declaration ++ (index.map .sectionIndex).toList) := by
  have hcompose : ∃ text, compose style _ = .ok text :=
    ⟨_, compose_eq_ok.mpr ⟨index, onlyIndex_append_index ds index,
      ⟨by rw [declarations_append_index]; exact fun x hx => (hds x hx).1, hsections⟩,
      String.toList_ofList⟩⟩
  obtain ⟨text, htext⟩ := hcompose
  refine ⟨text, htext, ?_⟩
  obtain ⟨index', leading', groups', honly, hclaim', hparse⟩ := parse_of_compose htext
  rw [onlyIndex_append_index] at honly
  rw [declarations_append_index] at hclaim'
  obtain rfl := Except.ok.inj honly
  cases hclaim.symm.trans hclaim'
  rw [hparse, horder, hindex, map_withoutSource fun x hx => (hds x hx).2]

/-- What the parser returns can be composed, and the text parses back to it. -/
theorem exists_compose (style : RenderStyle) {text : String} {es : List Element}
    (h : parse text false = .ok es) :
    ∃ text', compose style es = .ok text' ∧ parse text' false = .ok es := by
  have hentries := writable_of_parse h
  obtain ⟨d, hderives, -, ds, hds, rfl⟩ := parse_eq_ok.mp h
  rw [declarations_append_index] at hentries
  obtain ⟨leading, groups, hclaim, horder, hindex⟩ := claimAll_index hds
  exact exists_compose_of_claimAll style hentries (sections_writable hderives.lexes.allSpelled) hclaim
    horder hindex

/-- **Reformatting.** What the parser returns can be composed in either style. The text parses back to
the same declarations in the same order and the same index, and composing that parse gives the text
again. -/
theorem compose_faithful (text : String) (style : RenderStyle) {es : List Element}
    (h : parse text false = .ok es) :
    ∃ text', compose style es = .ok text' ∧ parse text' false = .ok es ∧
      ∀ es', parse text' false = .ok es' → compose style es' = .ok text' := by
  obtain ⟨text', hcompose, hparse⟩ := exists_compose style h
  refine ⟨text', hcompose, hparse, fun es' hes' => ?_⟩
  obtain rfl := Except.ok.inj (hparse.symm.trans hes')
  exact hcompose

/-- An import without a header, a path that two sections declare, and a member that is set twice. -/
theorem compose_faithful_imports : ∃ es,
    parse "import a::*;Data a::b\x7b\x7d###Pure Data a::b\x7b\"x\":true,\"x\":\"y\"\x7d" false =
      .ok es ∧ es.length = 3 ∧
    ∃ text', compose .pretty es = .ok text' ∧ parse text' false = .ok es ∧
      ∀ es', parse text' false = .ok es' → compose .pretty es' = .ok text' := by
  have h : parse "import a::*;Data a::b\x7b\x7d###Pure Data a::b\x7b\"x\":true,\"x\":\"y\"\x7d"
      false = .ok
        [.declaration { kind := "Data", path := "a::b", body := Json.Object.empty },
          .declaration
            { kind := "Data", path := "a::b", body := Json.Object.empty.insertString "x" "y" },
          .sectionIndex { sections :=
            [{ parserName := "Pure", elements := ["a::b"], kind := .importAware ["a"] },
              { parserName := "Pure", elements := ["a::b"], kind := .importAware [] }] }] := by
    cbv
  exact ⟨_, h, rfl, compose_faithful _ .pretty h⟩

end Grammar

end ModelText
