import ModelText.Proofs.Placement
import ModelText.Proofs.Positions
import ModelText.Proofs.Reformatting

/-!
# Source information

A text can be parsed with the spans of its parts or without them. The spans lie over the elements and
change nothing else (`parse_eq_withoutSource`). The span of a declaration is that of its own characters,
which can be cut out by it and parsed alone (`parse_cut`), the spans of all declarations follow one
another, and those of the declarations of a section lie in the span of the section.
-/

namespace ModelText

/-! ### Without spans -/

/-- The section without its span. -/
def Section.withoutSource (s : Section) : Section :=
  { s with source := none }

/-- The index without the spans of its sections. -/
def SectionIndex.withoutSource (index : SectionIndex) : SectionIndex :=
  { index with sections := index.sections.map Section.withoutSource }

namespace Element

/-- The element without any span. -/
def withoutSource : Element → Element
  | declaration d => .declaration d.withoutSource
  | sectionIndex index => .sectionIndex index.withoutSource

/-- Every place of an element for a span: that of a declaration, or those of the sections of an index. -/
def sources : Element → List (Option Span)
  | declaration d => [d.source]
  | sectionIndex index => index.sections.map (·.source)

/-- An element without spans has none at any place. -/
theorem sources_withoutSource (e : Element) : ∀ source ∈ e.withoutSource.sources, source = none := by
  cases e with
  | declaration d => exact List.forall_mem_singleton.mpr rfl
  | sectionIndex index =>
    intro source hsource
    obtain ⟨s, hs, rfl⟩ := List.mem_map.mp hsource
    obtain ⟨s', -, rfl⟩ := List.mem_map.mp hs
    rfl

/-- What is a declaration without its span was that declaration, with a span or without. -/
theorem eq_of_withoutSource {e : Element} {d : Declaration}
    (h : e.withoutSource = .declaration d.withoutSource) :
    ∃ source, e = .declaration { d with source } := by
  cases e with
  | sectionIndex index => cases h
  | declaration d' =>
    obtain ⟨kind, path, body, source⟩ := d'
    obtain ⟨kind', path', body', source'⟩ := d
    cases h
    exact ⟨source, rfl⟩

end Element

namespace Grammar

/-! ### Spans lie over the elements -/

theorem mapM_map_result {ε α β γ : Type} (f : α → Except ε β) (g : β → γ) (as : List α) :
    as.mapM (fun a => (f a).map g) = (as.mapM f).map (List.map g) := by
  -- By induction on the list.
  induction as with
  | nil => rfl
  | cons a as ih =>
    rw [List.mapM_cons, List.mapM_cons, ih]
    cases f a with
    | error e => rfl
    | ok b => cases as.mapM f <;> rfl

/-- A declaration is made of its entry with the span or without it, and of the same body. -/
theorem Entry.declaration_withoutSource (text : List Char) (e : Entry) :
    e.declaration text false = (e.declaration text true).map Declaration.withoutSource := by
  unfold Entry.declaration
  cases decodeBody text maxDepth e.body <;> rfl

theorem Block.declarations_withoutSource (text : List Char) (b : Block) :
    b.declarations text false =
      (b.declarations text true).map (List.map Declaration.withoutSource) := by
  have hentries : Entry.declaration text false =
      fun e => (e.declaration text true).map Declaration.withoutSource :=
    funext (Entry.declaration_withoutSource text)
  unfold Block.declarations
  rw [hentries, mapM_map_result]

/-- The elements of a document differ by their spans alone, the sections of the index included. -/
theorem Document.elements_withoutSource (text : List Char) (d : Document) :
    d.elements text false = (d.elements text true).map (List.map Element.withoutSource) := by
  have hblocks : Block.declarations text false =
      fun b => (b.declarations text true).map (List.map Declaration.withoutSource) :=
    funext (Block.declarations_withoutSource text)
  have hsections : d.sectionBlocks.map (Block.toSection text false) =
      (d.sectionBlocks.map (Block.toSection text true)).map Section.withoutSource := by
    rw [List.map_map]
    rfl
  unfold Document.elements
  rw [hblocks, mapM_map_result, hsections]
  cases (d.leading :: d.sections).mapM (Block.declarations text true) with
  | error e => rfl
  | ok groups =>
    have hgroups : ((groups.map (List.map Declaration.withoutSource)).flatten.map
        Element.declaration) = (groups.flatten.map Element.declaration).map Element.withoutSource := by
      rw [← List.map_flatten, List.map_map, List.map_map]
      rfl
    show Except.ok _ = Except.ok _
    rw [hgroups, List.map_append]
    cases d.hasIndex <;> rfl

/-- **Overlay.** Parsing without spans gives what parsing with spans gives, apart from the spans, and
the same error. -/
theorem parse_eq_withoutSource (text : String) :
    parse text false = (parse text true).map (List.map Element.withoutSource) := by
  unfold parse
  -- Neither the scan nor the reading of the document looks at whether spans are kept.
  cases checkNesting text.toList with
  | error e => rfl
  | ok _ =>
    cases Document.read text.toList with
    | error e => rfl
    | ok d => exact d.elements_withoutSource text.toList

/-! ### The span of a declaration -/

/-- A declaration has the span of its entry, and its path. -/
theorem Entry.source_eq {text : List Char} {e : Entry} {d : Declaration}
    (h : e.declaration text true = .ok d) :
    d.source = some (span text e.start e.stop) ∧ d.path = String.ofList e.path := by
  obtain ⟨body, -, hd⟩ := Json.Reader.bind_eq_ok.mp h
  cases hd
  exact ⟨rfl, rfl⟩

/-- The characters of a declaration alone are parsed as that declaration. -/
theorem parse_piece {text piece : List Char} {e : Entry} {d : Declaration}
    (hderives : (Tree.Document.single e.tree).Derives piece) (h : e.declaration text true = .ok d) :
    parse (String.ofList piece) false = .ok [.declaration d.withoutSource] := by
  have hplain : e.declaration text false = .ok d.withoutSource := by
    rw [Entry.declaration_withoutSource, h]
    rfl
  have hmem : e.tree ∈ (Tree.Document.single e.tree).entries := by
    simp [Tree.Document.single, Tree.Document.entries]
  have hspelled := AllSpelled.entries hderives.lexes.allSpelled e.tree hmem
  obtain ⟨hmeans, hdepth⟩ := (Entry.declaration_eq_ok hspelled).mp hplain
  refine parse_eq_ok.mpr ⟨.single e.tree, ?_, ?_, [d.withoutSource], ?_, rfl⟩
  · rwa [String.toList_ofList]
  · intro e' he'
    obtain rfl : e' = e.tree := by simpa [Tree.Document.single, Tree.Document.entries] using he'
    exact hdepth
  · exact .cons hmeans .nil

/-- **Cutting out.** The text in the span of a declaration is parsed as that declaration. -/
theorem parse_cut {text : String} {e : Entry} {d : Declaration} (hstart : e.start <:+ text.toList)
    (hread : (Phrase.declaration e.start).result = some (e, e.stop))
    (h : e.declaration text.toList true = .ok d) (keepSource : Bool) :
    ∃ source, parse ((span text.toList e.start e.stop).cut text) keepSource =
      .ok [.declaration { d with source }] := by
  obtain ⟨piece, hpiece, -, hderives⟩ := exists_derives_of_declaration hread
  have hplain := parse_piece hderives h
  have hcut : (span text.toList e.start e.stop).cut text = String.ofList piece :=
    Span.cut_of hstart hpiece
  rw [hcut]
  -- Without spans it is what the characters of the piece are parsed as.
  cases keepSource with
  | false => exact ⟨none, hplain⟩
  | true =>
    -- With spans it is the same declaration, up to its span in the piece.
    rw [parse_eq_withoutSource] at hplain
    cases hkept : parse (String.ofList piece) true with
    | error e =>
      rw [hkept] at hplain
      cases hplain
    | ok es =>
      rw [hkept] at hplain
      obtain ⟨element, rfl, helement⟩ := List.map_eq_singleton_iff.mp (Except.ok.inj hplain)
      obtain ⟨source, rfl⟩ := Element.eq_of_withoutSource helement
      exact ⟨source, rfl⟩

/-- The span of a declaration is not empty. -/
theorem lt_of_declaration {text : List Char} {e : Entry} (hstart : e.start <:+ text)
    (hread : (Phrase.declaration e.start).result = some (e, e.stop)) :
    (span text e.start e.stop).start < (span text e.start e.stop).stop := by
  obtain ⟨piece, hpiece, hne, -⟩ := exists_derives_of_declaration hread
  exact Position.of_lt_of hstart hpiece hne

/-! ### The spans of a parse -/

/-- A parse gives the declarations of each block of a document that is read, and an index of those blocks
that count as sections. -/
theorem exists_blocks_of_parse {text : String} {keepSource : Bool} {es : List Element}
    (h : parse text keepSource = .ok es) :
    ∃ (d : Document) (groups : List (List Declaration)) (index? : Option SectionIndex),
      Document.read text.toList = .ok d ∧
      List.Forall₂ (fun b ds => Block.declarations text.toList keepSource b = .ok ds)
        (d.leading :: d.sections) groups ∧
      es = groups.flatten.map .declaration ++ (index?.map .sectionIndex).toList ∧
      ∀ index ∈ index?, index.sections = d.sectionBlocks.map (Block.toSection text.toList keepSource) := by
  obtain ⟨_, -, h⟩ := Json.Reader.bind_eq_ok.mp h
  obtain ⟨d, hread, h⟩ := Json.Reader.bind_eq_ok.mp h
  obtain ⟨groups, hgroups, h⟩ := Json.Reader.bind_eq_ok.mp h
  cases h
  let index : SectionIndex :=
    { sections := d.sectionBlocks.map (Block.toSection text.toList keepSource) }
  refine ⟨d, groups, if d.hasIndex then some index else none, hread, mapM_eq_ok.mp hgroups, ?_, ?_⟩
  · cases d.hasIndex <;> rfl
  · cases d.hasIndex with
    | false => exact nofun
    | true =>
      rintro index ⟨⟩
      rfl

/-- The block in front of the first header can be left out where it is no section, since it has no
declarations. -/
theorem exists_groups_of_sectionBlocks {text : List Char} {keepSource : Bool} {d : Document}
    {groups : List (List Declaration)}
    (h : List.Forall₂ (fun b ds => Block.declarations text keepSource b = .ok ds)
      (d.leading :: d.sections) groups) :
    ∃ groups' : List (List Declaration), groups'.flatten = groups.flatten ∧
      List.Forall₂ (fun b ds => Block.declarations text keepSource b = .ok ds)
        d.sectionBlocks groups' := by
  unfold Document.sectionBlocks
  cases hsection : d.leading.isSection with
  | true => exact ⟨groups, rfl, h⟩
  | false =>
    obtain ⟨hentries, -⟩ : d.leading.entries = [] ∧ d.leading.imports = [] := by
      simpa [Block.isSection] using hsection
    -- Its group is the first, and empty.
    cases h with
    | @cons _ ds _ groups hleading hsections =>
      rw [Block.declarations, hentries] at hleading
      cases hleading
      exact ⟨groups, rfl, hsections⟩

/-- What is published as a section is a block of the document. -/
theorem Document.mem_of_sectionBlocks {d : Document} {b : Block} (h : b ∈ d.sectionBlocks) :
    b ∈ d.leading :: d.sections := by
  unfold Document.sectionBlocks at h
  split at h
  · exact h
  · exact List.mem_cons_of_mem _ h

/-- The span of a block contains those of its declarations. -/
theorem Block.within_of_declarations {text : List Char} {b : Block} {ds : List Declaration}
    (hplaced : b.Placed text) (h : b.declarations text true = .ok ds) :
    (b.toSection text true).elements = ds.map (·.path) ∧
      ∀ d ∈ ds, ∀ s ∈ d.source, s.Within (span text b.start b.stop) := by
  have hdeclarations := mapM_eq_ok.mp h
  refine ⟨map_eq_map_of_forall₂ (hdeclarations.imp fun e d hd => (Entry.source_eq hd).2.symm), ?_⟩
  intro d hd s hs
  -- A declaration comes from an entry, and that stands between the ends of the block.
  obtain ⟨e, he, hdeclaration⟩ := exists_of_forall₂ hdeclarations hd
  rw [(Entry.source_eq hdeclaration).1] at hs
  cases hs
  obtain ⟨hstart, hstop, hread⟩ := hplaced.entries.forall_mem e he
  have hinside : e.stop <:+ text :=
    ((isSuffix_of_declaration hread).trans hstart).trans hplaced.start
  exact ⟨Position.of_le_of hplaced.start hstart, Position.of_le_of hinside hstop⟩

/-- The spans of declarations that stand one after another. -/
theorem pairwise_of_placed {text rest : List Char} {entries : List Entry} {ds : List Declaration}
    (hplaced : Placed text entries rest)
    (h : List.Forall₂ (fun e d => e.declaration text true = .ok d) entries ds) :
    ds.Pairwise fun d d' => ∀ s ∈ d.source, ∀ s' ∈ d'.source, s.stop ≤ s'.start := by
  have hsources : ds.map (·.source) = entries.map fun e => some (span text e.start e.stop) :=
    (map_eq_map_of_forall₂ (h.imp fun e d hd => (Entry.source_eq hd).1.symm)).symm
  -- Each declaration begins where the one before it has ended, or behind that.
  have hspans : (entries.map fun e => some (span text e.start e.stop)).Pairwise
      fun source source' => ∀ s ∈ source, ∀ s' ∈ source', s.stop ≤ s'.start := by
    rw [List.pairwise_map]
    refine hplaced.pairwise.imp_of_mem fun {e e'} he he' hnext => ?_
    rintro s ⟨⟩ s' ⟨⟩
    obtain ⟨hstart, -, hread⟩ := hplaced.forall_mem e he
    exact Position.of_le_of ((isSuffix_of_declaration hread).trans hstart) hnext
  rw [← hsources, List.pairwise_map] at hspans
  exact hspans

/-- With spans every element has all of them. -/
theorem isSome_of_mem_sources {text : List Char} {entries : List Entry} {ds : List Declaration}
    {blocks : List Block} {index? : Option SectionIndex}
    (h : List.Forall₂ (fun e d => e.declaration text true = .ok d) entries ds)
    (hindex : ∀ index ∈ index?, index.sections = blocks.map (Block.toSection text true)) :
    ∀ e ∈ ds.map Element.declaration ++ (index?.map Element.sectionIndex).toList,
      ∀ source ∈ e.sources, source.isSome := by
  intro e he
  rcases List.mem_append.mp he with he | he
  · obtain ⟨d, hd, rfl⟩ := List.mem_map.mp he
    obtain ⟨entry, -, hdeclaration⟩ := exists_of_forall₂ h hd
    refine List.forall_mem_singleton.mpr ?_
    rw [(Entry.source_eq hdeclaration).1]
    rfl
  · obtain ⟨index, hmem, rfl⟩ := Option.map_eq_some_iff.mp (Option.mem_toList.mp he)
    intro source hsource
    obtain ⟨s, hs, rfl⟩ := List.mem_map.mp hsource
    rw [hindex index hmem] at hs
    obtain ⟨b, -, rfl⟩ := List.mem_map.mp hs
    rfl

/-- The sections of an index have spans, which contain those of their declarations. -/
theorem sections_contain {text : List Char} {blocks : List Block} {groups : List (List Declaration)}
    (hplaced : ∀ b ∈ blocks, b.Placed text)
    (h : List.Forall₂ (fun b ds => Block.declarations text true b = .ok ds) blocks groups) :
    List.Forall₂ (fun s ds => s.elements = ds.map (·.path) ∧
        ∃ outer, s.source = some outer ∧ ∀ d ∈ ds, ∀ s' ∈ d.source, s'.Within outer)
      (blocks.map (Block.toSection text true)) groups := by
  rw [List.forall₂_map_left_iff]
  refine ((List.forall₂_and_left _ _).mpr ⟨hplaced, h⟩).imp fun b ds hb => ?_
  obtain ⟨hpaths, hwithin⟩ := Block.within_of_declarations hb.1 hb.2
  exact ⟨hpaths, _, rfl, hwithin⟩

end Grammar

open Grammar

/-- **Source information.** Parsing without spans is parsing with spans and leaving them out, errors
included, and with spans every declaration and every section has one. The text in the span of a
declaration is parsed as just that declaration. The declarations follow one another in the text, and
those of a section stand in the section: they are dealt out to the sections in order, to each those that
it lists. -/
theorem spans_lie_over_elements (text : String) :
    parse text false = (parse text true).map (List.map Element.withoutSource) ∧
    (∀ es, parse text false = .ok es → ∀ e ∈ es, ∀ source ∈ e.sources, source = none) ∧
    ∀ es, parse text true = .ok es →
      (∀ e ∈ es, ∀ source ∈ e.sources, source.isSome) ∧
      (∀ d ∈ Element.declarations es, ∀ s ∈ d.source, s.start < s.stop ∧
        ∀ keepSource, ∃ source, parse (s.cut text) keepSource = .ok [.declaration { d with source }]) ∧
      (Element.declarations es).Pairwise
        (fun d d' => ∀ s ∈ d.source, ∀ s' ∈ d'.source, s.stop ≤ s'.start) ∧
      ∀ index ∈ Element.sectionIndexes es, ∃ groups : List (List Declaration),
        groups.flatten = Element.declarations es ∧
        List.Forall₂ (fun s ds => s.elements = ds.map (·.path) ∧
          ∃ outer, s.source = some outer ∧ ∀ d ∈ ds, ∀ s' ∈ d.source, s'.Within outer)
          index.sections groups := by
  refine ⟨parse_eq_withoutSource text, ?_, ?_⟩
  · intro es h e he
    rw [parse_eq_withoutSource] at h
    -- A parse without spans is one with spans that are left out.
    cases hkept : parse text true with
    | error error =>
      rw [hkept] at h
      cases h
    | ok es' =>
      rw [hkept] at h
      obtain rfl := Except.ok.inj h
      obtain ⟨e', -, rfl⟩ := List.mem_map.mp he
      exact Element.sources_withoutSource e'
  · intro es h
    obtain ⟨d, groups, index?, hread, hgroups, rfl, hindex⟩ := exists_blocks_of_parse h
    obtain ⟨⟨rest, hplaced⟩, hblocks⟩ := Document.placed_of_read hread
    -- What holds block by block of declarations and entries holds of all of them in order.
    have hentries : List.Forall₂ (fun e d => e.declaration text.toList true = .ok d)
        d.entries groups.flatten := by
      rw [← List.flatMap_id]
      exact List.rel_flatMap hgroups fun _ _ hb => mapM_eq_ok.mp hb
    -- The declarations and the index of the parse, of which the clauses speak one after another.
    rw [declarations_append_index, sectionIndexes_append_index]
    refine ⟨?_, ?_, pairwise_of_placed hplaced hentries, ?_⟩
    · exact isSome_of_mem_sources hentries hindex
    · intro declaration hd s hs
      obtain ⟨e, he, hdeclaration⟩ := exists_of_forall₂ hentries hd
      obtain ⟨hstart, -, hdecl⟩ := hplaced.forall_mem e he
      rw [(Entry.source_eq hdeclaration).1] at hs
      cases hs
      exact ⟨lt_of_declaration hstart hdecl, parse_cut hstart hdecl hdeclaration⟩
    · intro index hmem
      obtain ⟨groups', hflatten, hsections⟩ := exists_groups_of_sectionBlocks hgroups
      rw [hindex index (Option.mem_toList.mp hmem)]
      refine ⟨groups', hflatten, sections_contain ?_ hsections⟩
      exact fun b hb => hblocks b (Document.mem_of_sectionBlocks hb)

/-- Two sections after comments, with a letter of more than one byte and with line breaks of two
characters. -/
theorem spans_lie_over_elements_sections :
    let text := "/* é */ Data a::B\x7b\"x\": \"é\"\x7d // end\r\n###data\r\nData c::D \x7b\n\x7d\r\n"
    let first : Span := ⟨⟨1, 9⟩, ⟨1, 28⟩⟩
    let second : Span := ⟨⟨3, 1⟩, ⟨4, 2⟩⟩
    let b : Declaration := ⟨"Data", "a::B", Json.Object.empty.insertString "x" "é", some first⟩
    let d : Declaration := ⟨"Data", "c::D", .empty, some second⟩
    let index : SectionIndex := { sections := [⟨"Pure", ["a::B"], .plain, some first⟩,
      ⟨"data", ["c::D"], .importAware [], some ⟨⟨2, 1⟩, ⟨4, 2⟩⟩⟩] }
    parse text true = .ok [.declaration b, .declaration d, .sectionIndex index] ∧
      (∀ keepSource, ∃ source,
        parse (second.cut text) keepSource = .ok [.declaration { d with source }]) ∧
      first.stop ≤ second.start ∧
      ∃ groups : List (List Declaration), groups.flatten = [b, d] ∧
        List.Forall₂ (fun s ds => s.elements = ds.map (·.path) ∧
          ∃ outer, s.source = some outer ∧ ∀ d ∈ ds, ∀ s' ∈ d.source, s'.Within outer)
          index.sections groups := by
  intro text first second b d index
  have hparse : parse text true = .ok [.declaration b, .declaration d, .sectionIndex index] := by
    simp only [text, b, d, index, first, second]
    cbv
  clear_value text
  obtain ⟨-, -, hkept⟩ := spans_lie_over_elements text
  obtain ⟨-, hpieces, hordered, hsections⟩ := hkept _ hparse
  have hb : ∀ d' ∈ [d], ∀ s ∈ b.source, ∀ s' ∈ d'.source, s.stop ≤ s'.start :=
    (List.pairwise_cons.mp hordered).1
  exact ⟨hparse, (hpieces d (by simp [Element.declarations]) second rfl).2,
    hb d List.mem_cons_self first rfl second rfl, hsections index List.mem_cons_self⟩

end ModelText
