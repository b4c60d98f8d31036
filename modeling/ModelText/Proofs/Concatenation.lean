import ModelText.Proofs.Content

/-!
# Reading texts one after another

Two texts of which the first ends its last line can be put together without changing the tokens of
either (`Lexes.append`): a line comment ends with the line, and no token goes on with a line break. As
derivations, the declarations in front of the first header of the second text go on with the last
block of the first (`Tree.Document.append`). If no block imports anything, reading the whole gives the
entities of both texts in order.
-/

namespace ModelText

namespace Grammar

/-! ### Tokens of two texts -/

/-- The text ends its last line: it is empty, or a line break is the last of it. -/
def EndsLine (cs : List Char) : Prop :=
  ∀ c ∈ cs.getLast?, c = '\n'

theorem EndsLine.of_append {cs : List Char} (pre : List Char) (h : EndsLine (pre ++ cs)) :
    EndsLine cs := by
  intro c hc
  apply h
  rw [List.getLast?_append, hc]
  rfl

/-- No token ends with a blank. -/
theorem Token.Spelled.not_isBlank_of_getLast? {t : Token} {w : List Char} (h : t.Spelled w) :
    ∀ c ∈ w.getLast?, ¬ isBlank c := by
  intro c hc
  by_cases hstring : t.class = .string
  · -- A string ends with its quote.
    have hquote : ¬ isBlank '"' := Bool.false_ne_true
    obtain ⟨raw, rfl⟩ := Token.exists_string_of_class hstring
    cases h with
    | string hw =>
      obtain ⟨body, -, rfl⟩ := hw
      rw [List.getLast?_concat] at hc
      obtain rfl : '"' = c := Option.some.inj hc
      exact hquote
  · by_cases hmark : t.class = .mark
    · -- A mark ends with its first character, which a blank is not.
      obtain ⟨m, rfl⟩ := Token.exists_mark_of_class hmark
      obtain ⟨first, more, hfirst, hclass⟩ := h.exists_first
      cases h with
      | mark hm =>
        obtain ⟨rfl, -⟩ := List.cons.inj hfirst
        obtain rfl : m = c := Option.some.inj hc
        intro hblank
        rw [classOf?_of_isBlank hblank] at hclass
        cases hclass
    · -- All other tokens are solid throughout.
      have hsolid := h.solid hstring hmark c (List.mem_of_getLast? hc)
      intro hblank
      exact (Separator.blank hblank .nil).head c rfl hsolid

/-- A text that ends with its last token does not end its last line. -/
theorem Scans.not_endsLine {cs : List Char} {ts : List Token} (h : Scans cs ts [])
    (hts : ts ≠ []) : ¬ EndsLine cs := by
  -- By induction on the tokens up to the last one, which is at the end of all texts before it.
  induction ts generalizing cs with
  | nil => exact absurd rfl hts
  | cons t ts ih =>
    intro hend
    obtain ⟨mid, ⟨w, hw, hskip, -⟩, hscan⟩ := h
    obtain ⟨g, hg⟩ := (gap_skip cs).exists_append
    rw [hg, hskip] at hend
    by_cases hnil : ts = []
    · subst hnil
      obtain rfl : mid = [] := hscan
      obtain ⟨first, more, rfl, -⟩ := hw.exists_first
      rw [List.append_nil] at hend
      have hlast := List.getLast?_eq_some_getLast (List.cons_ne_nil first more)
      refine hw.not_isBlank_of_getLast? _ hlast ?_
      rw [hend.of_append g _ hlast]
      rfl
    · exact ih hscan hnil ((hend.of_append g).of_append w)

/-- A gap up to the end of a text is closed if the text ends its last line. -/
theorem Gap.separator {cs : List Char} (h : Gap cs []) (hend : EndsLine cs) : Separator cs := by
  generalize hrest : ([] : List Char) = rest at h
  -- By induction on the gap. What could be open is a line comment in the last line.
  induction h with
  | none =>
    subst hrest
    exact .nil
  | @blank c cs rest hc _ ih => exact .blank hc (ih (hend.of_append [c]) hrest)
  | @line body cs rest hbody hhead _ ih =>
    have hmore : EndsLine (body ++ cs) := hend.of_append ['/', '/']
    cases cs with
    | nil =>
      rw [List.append_nil] at hmore hend
      -- The last character would be one of the comment, in which there is no line break.
      cases hlast : body.getLast? with
      | none =>
        obtain rfl := List.getLast?_eq_none_iff.mp hlast
        exact absurd (hend '/' rfl) (by decide)
      | some c => exact absurd (hmore c hlast) (hbody c (List.mem_of_getLast? hlast))
    | cons c cs =>
      obtain rfl := hhead c rfl
      have hclosed := ih (hmore.of_append body) hrest
      cases hclosed with
      | blank _ hcs => exact .line hbody hcs
  | @block body cs rest hbody _ ih =>
    have hmore : EndsLine (body ++ '*' :: '/' :: cs) := hend.of_append ['/', '*']
    exact .block hbody (ih ((hmore.of_append body).of_append ['*', '/']) hrest)

/-- **Tokens of two texts.** If the first text ends its last line, the tokens of both together are
those of the one and then those of the other. -/
theorem Lexes.append {cs ds : List Char} {ts us : List Token} (hend : EndsLine cs)
    (h : Lexes cs ts) (h' : Lexes ds us) : Lexes (cs ++ ds) (ts ++ us) := by
  obtain ⟨rest, hscan, hrest⟩ := lexes_iff.mp h
  obtain ⟨pre, rfl⟩ := hscan.exists_append
  have hclosed : Separator rest := Gap.separator (hrest ▸ gap_skip rest) (hend.of_append pre)
  have hscan' : Scans (pre ++ (rest ++ ds)) ts (rest ++ ds) := by
    cases rest with
    | cons c rest =>
      -- No token goes on into what follows the last one.
      exact hscan.replace (hclosed.head ·)
    | nil =>
      rw [List.append_nil] at hscan hend
      by_cases hts : ts = []
      · subst hts
        exact congrArg (· ++ ds) (scans_nil.mp hscan)
      · exact absurd hend (hscan.not_endsLine hts)
  rw [List.append_assoc]
  exact hscan'.lexes_append (.of_gap (hclosed.gap ds) h')

/-! ### Derivations of two texts -/

namespace Tree

/-- Declarations that go on with a block. -/
def Block.extend (b : Block) (es : List Entry) : Block :=
  { b with entries := b.entries ++ es }

/-- The derivation of a text and of another after it, which imports nothing before its first header:
its declarations there belong to the last block of the first text. -/
def Document.append (d d' : Document) : Document :=
  match d.sections.getLast? with
  | none => ⟨d.leading.extend d'.leading.entries, d'.sections⟩
  | some s =>
    ⟨d.leading, d.sections.dropLast ++ (s.1, s.2.extend d'.leading.entries) :: d'.sections⟩

/-- No block imports anything. -/
def Document.ImportFree (d : Document) : Prop :=
  d.leading.imports = [] ∧ ∀ s ∈ d.sections, s.2.imports = []

theorem Block.tokens_extend (b : Block) (es : List Entry) :
    (b.extend es).tokens = b.tokens ++ es.flatMap Entry.tokens := by
  simp [Block.tokens, Block.extend]

/-- The last section of a document, if there is one, and those before it. -/
theorem Document.append_cases (d d' : Document) :
    (d.sections = [] ∧ d.append d' = ⟨d.leading.extend d'.leading.entries, d'.sections⟩) ∨
      ∃ ss s, d.sections = ss ++ [s] ∧ d.append d' =
        ⟨d.leading, ss ++ (s.1, s.2.extend d'.leading.entries) :: d'.sections⟩ := by
  unfold Document.append
  rcases List.eq_nil_or_concat d.sections with hnil | ⟨ss, s, hlast⟩
  · rw [hnil]
    exact .inl ⟨rfl, rfl⟩
  · rw [hlast, List.concat_eq_append, List.getLast?_concat, List.dropLast_concat]
    exact .inr ⟨ss, s, rfl, rfl⟩

theorem Document.tokens_append {d d' : Document} (h : d'.leading.imports = []) :
    (d.append d').tokens = d.tokens ++ d'.tokens := by
  have hleading : d'.leading.tokens = d'.leading.entries.flatMap Entry.tokens := by
    rw [Block.tokens, h]
    rfl
  rcases d.append_cases d' with ⟨hnil, happend⟩ | ⟨ss, s, hlast, happend⟩
  · simp [happend, Document.tokens, hnil, Block.tokens_extend, hleading]
  · simp [happend, Document.tokens, hlast, sectionTokens, Block.tokens_extend, hleading]

theorem Document.entries_append (d d' : Document) :
    (d.append d').entries = d.entries ++ d'.entries := by
  rcases d.append_cases d' with ⟨hnil, happend⟩ | ⟨ss, s, hlast, happend⟩
  · simp [happend, Document.entries, hnil, Block.extend]
  · simp [happend, Document.entries, hlast, Block.extend]

theorem Document.ImportFree.append {d d' : Document} (h : d.ImportFree) (h' : d'.ImportFree) :
    (d.append d').ImportFree := by
  obtain ⟨hleading, hsections⟩ := h
  rcases d.append_cases d' with ⟨hnil, happend⟩ | ⟨ss, s, hlast, happend⟩
  · rw [happend]
    exact ⟨hleading, h'.2⟩
  · rw [hlast] at hsections
    rw [happend]
    obtain ⟨hss, hs⟩ := List.forall_mem_append.mp hsections
    refine ⟨hleading, List.forall_mem_append.mpr ⟨hss, List.forall_mem_cons.mpr ⟨?_, h'.2⟩⟩⟩
    exact hs s (List.mem_singleton_self s)

theorem hasImports_sectionOf (b : Option (List Char) × Block) :
    (sectionOf b).hasImports ↔ b.2.imports ≠ [] := by
  obtain ⟨header, imports, entries⟩ := b
  cases imports with
  | nil => cases header <;> simp [sectionOf, Section.hasImports]
  | cons path imports => simp [sectionOf, Section.hasImports]

/-- The sections of an index import something exactly if a block does. -/
theorem Document.importFree_iff {d : Document} :
    d.ImportFree ↔ ∀ index ∈ d.index?, ∀ s ∈ index.sections, ¬ s.hasImports := by
  have hblocks : (∀ b ∈ d.blocks, b.2.imports = []) ↔ d.ImportFree := by
    unfold Document.blocks Document.ImportFree
    rw [List.forall_mem_append, List.forall_mem_map]
    refine and_congr_left' ?_
    split
    · next hempty =>
      rw [Bool.and_eq_true, List.isEmpty_iff, List.isEmpty_iff] at hempty
      exact ⟨fun _ => hempty.2, fun _ => nofun⟩
    · exact List.forall_mem_singleton
  cases hindex : d.index? with
  | none =>
    obtain ⟨hsections, himports⟩ := Document.index?_eq_none.mp hindex
    refine ⟨fun _ => nofun, fun _ => ⟨himports, ?_⟩⟩
    rw [hsections]
    exact nofun
  | some index =>
    rw [← hblocks, d.index?_eq_some hindex]
    simp only [Option.mem_def, Option.some.injEq, forall_eq', List.forall_mem_map, hasImports_sectionOf,
      not_not]

end Tree

end Grammar

open Grammar

/-- Reading many, by derivations: no block of the text imports anything, and the entities are what its
declarations stand for. -/
theorem deserializeMany_iff_derives {format : Format} {text : String} {entities : List Entity} :
    ((format.codec (m := Id)).deserializeMany text).run.run = .ok entities ↔
      ∃ d : Tree.Document, d.Derives text.toList ∧ (∀ e ∈ d.entries, e.depth ≤ maxDepth) ∧
        d.ImportFree ∧ ∃ ds, List.Forall₂ Tree.Entry.Means d.entries ds ∧
          List.Forall₂ (fun d entity => format.taxonomy.toEntity (.declaration d) = .ok entity)
            ds entities := by
  rw [deserializeMany_eq_ok]
  refine ⟨?_, ?_⟩
  · rintro ⟨es, hparse, himports, hentities⟩
    obtain ⟨d, hderives, hdepth, ds, hds, rfl⟩ := parse_eq_ok.mp hparse
    rw [declarations_append_index] at hentities
    refine ⟨d, hderives, hdepth, Tree.Document.importFree_iff.mpr fun index hindex => ?_, ds, hds,
      hentities⟩
    exact himports index (by rwa [sectionIndexes_append_index, Option.mem_toList])
  · rintro ⟨d, hderives, hdepth, himports, ds, hds, hentities⟩
    refine ⟨_, parse_eq_ok.mpr ⟨d, hderives, hdepth, ds, hds, rfl⟩, fun index hindex => ?_, ?_⟩
    · rw [sectionIndexes_append_index, Option.mem_toList] at hindex
      exact Tree.Document.importFree_iff.mp himports index hindex
    · rwa [declarations_append_index]

/-- Texts that are read are read together, if the first of them ends its last line: its last comment would
go on into the second otherwise. -/
theorem deserializeMany_append_of_endsLine {format : Format} {text text' : String}
    {entities entities' : List Entity} (hlines : EndsLine text.toList)
    (h : ((format.codec (m := Id)).deserializeMany text).run.run = .ok entities)
    (h' : ((format.codec (m := Id)).deserializeMany text').run.run = .ok entities') :
    ((format.codec (m := Id)).deserializeMany (text ++ text')).run.run =
      .ok (entities ++ entities') := by
  rw [deserializeMany_iff_derives] at h h' ⊢
  obtain ⟨d, hderives, hdepth, himports, ds, hds, hentities⟩ := h
  obtain ⟨d', hderives', hdepth', himports', ds', hds', hentities'⟩ := h'
  refine ⟨d.append d', ⟨?_, ?_⟩, ?_, himports.append himports', ds ++ ds', ?_, ?_⟩
  · rw [String.toList_append, Tree.Document.tokens_append himports'.1]
    exact hderives.lexes.append hlines hderives'.lexes
  · rw [Tree.Document.entries_append]
    exact List.forall_mem_append.mpr ⟨hderives.kinds, hderives'.kinds⟩
  · rw [Tree.Document.entries_append]
    exact List.forall_mem_append.mpr ⟨hdepth, hdepth'⟩
  · rw [Tree.Document.entries_append]
    exact List.rel_append hds hds'
  · exact List.rel_append hentities hentities'

theorem endsLine_append_newline (lines : String) : EndsLine (lines ++ "\n").toList := by
  intro c hc
  rw [String.toList_append] at hc
  simpa [eq_comm] using hc

/-- **Reading two texts.** If the first text is empty or ends with a line break, then reading both
together gives what reading the one gives and then what reading the other gives. -/
theorem deserializeMany_append (format : Format) {text text' : String}
    {entities entities' : List Entity} (hend : text = "" ∨ ∃ lines, text = lines ++ "\n")
    (h : ((format.codec (m := Id)).deserializeMany text).run.run = .ok entities)
    (h' : ((format.codec (m := Id)).deserializeMany text').run.run = .ok entities') :
    ((format.codec (m := Id)).deserializeMany (text ++ text')).run.run =
      .ok (entities ++ entities') := by
  have hlines : EndsLine text.toList := by
    rcases hend with rfl | ⟨lines, rfl⟩
    · exact nofun
    · exact endsLine_append_newline lines
  exact deserializeMany_append_of_endsLine hlines h h'

/-- An empty section and a comment at the end of the first text, and a kind that is spelled like the
keyword of imports at the beginning of the second. -/
theorem deserializeMany_append_import :
    let mapping : ClassifierMapping := ⟨"x::Import", "import", "import"⟩
    let text := "Data a::B\x7b\x7d\n###data // none\n"
    let text' := "import a::C\x7b\x7d"
    let data : Entity := ⟨"a::B", "meta::pure::data::DataElement",
      ((Json.Object.empty.insertString "_type" "dataElement").insertString "package" "a"
        ).insertString "name" "B"⟩
    let imported : Entity := ⟨"a::C", "x::Import",
      ((Json.Object.empty.insertString "_type" "import").insertString "package" "a"
        ).insertString "name" "C"⟩
    ∃ format, Format.ofConfig { classifiers := [mapping] } = .ok format ∧
      ((format.codec (m := Id)).deserializeMany text).run.run = .ok [data] ∧
      ((format.codec (m := Id)).deserializeMany text').run.run = .ok [imported] ∧
      ((format.codec (m := Id)).deserializeMany (text ++ text')).run.run =
        .ok [data, imported] := by
  intro mapping text text' data imported
  have hconsistent : ClassifierMapping.Consistent (Taxonomy.standardMappings ++ [mapping]) := by
    decide
  have hconfig : Format.ofConfig { classifiers := [mapping] } =
      .ok ⟨"pure", "pure", .pretty, ⟨Taxonomy.standardMappings ++ [mapping], hconsistent⟩⟩ := by
    cbv
  have h : ((Format.codec (m := Id) ⟨"pure", "pure", .pretty,
      ⟨Taxonomy.standardMappings ++ [mapping], hconsistent⟩⟩).deserializeMany text).run.run =
      .ok [data] := by
    simp only [text, data, mapping]
    cbv
  have h' : ((Format.codec (m := Id) ⟨"pure", "pure", .pretty,
      ⟨Taxonomy.standardMappings ++ [mapping], hconsistent⟩⟩).deserializeMany text').run.run =
      .ok [imported] := by
    simp only [text', imported, mapping]
    cbv
  exact ⟨_, hconfig, h, h', deserializeMany_append _ (.inr ⟨"Data a::B\x7b\x7d\n###data // none", rfl⟩)
    h h'⟩

end ModelText
