import ModelText.Proofs.Acceptance
import ModelText.Proofs.Writing

/-!
# What is written parses back

The text that is composed of leading declarations and sections has a derivation that can be told in
advance (`arrange`): a section with a head is a block after a header, and what stands without a head
goes on with the block before it. So a composed text is accepted, and it means its declarations in the
order in which they are written, and an index of its blocks (`parse_of_compose`).
-/

namespace ModelText

open Grammar

/-- The derivation of the text of a declaration. -/
def Declaration.tree (d : Declaration) : Tree.Entry :=
  ⟨d.kind.toList, d.path.toList, Json.treeMembers d.body.members⟩

/-- The declaration without its position. -/
def Declaration.withoutSource (d : Declaration) : Declaration :=
  { d with source := none }

/-- A declaration is as deep as the value of its body. -/
theorem Declaration.depth_tree (d : Declaration) : d.tree.depth = d.body.toJson.depth := by
  rw [Tree.Entry.depth, tree, Json.depth_treeMembers]
  rfl

/-- The text of a declaration means the declaration, wherever it stood. -/
theorem Declaration.means_tree (d : Declaration) : d.tree.Means d.withoutSource where
  kind := String.ofList_toList.symm
  path := String.ofList_toList.symm
  body := ⟨d.body.members, Json.membersMean_treeMembers _ d.body.ordered.2,
    (Json.insertMembers_nil d.body.ordered.1).symm⟩
  source := rfl

namespace Grammar

/-! ### Chunks and their tokens -/

/-- The characters are those of the tokens, in front of any text that does not go on with the last of
them. -/
def HasTokens (w : List Char) (ts : List Token) : Prop :=
  ∀ rest, Breaks rest → Scans (w ++ rest) ts rest

/-- A gap in front of a text does not change its tokens. -/
theorem Lexes.of_gap {cs mid : List Char} {ts : List Token} (hgap : Gap cs mid)
    (h : Lexes mid ts) : Lexes cs ts := by
  cases h with
  | done hend => exact .done (hgap.trans hend)
  | token hmid hat h => exact .token (hgap.trans hmid) hat h

/-- Tokens that are met first and the tokens of what is left make up the text. -/
theorem Scans.lexes_append {cs mid : List Char} {ts us : List Token} (h : Scans cs ts mid)
    (h' : Lexes mid us) : Lexes cs (ts ++ us) := by
  obtain ⟨rest, hrest, hend⟩ := lexes_iff.mp h'
  exact lexes_iff.mpr ⟨rest, h.append hrest, hend⟩

/-- Chunks with empty lines between them have the tokens of all chunks. -/
theorem lexes_joinChunks {ws : List (List Char)} {tss : List (List Token)}
    (h : List.Forall₂ HasTokens ws tss) : Lexes (joinChunks ws) tss.flatten := by
  -- By induction on the chunks. The last of them is followed by one line break, the others by two.
  induction h with
  | nil => exact .done (.none [])
  | @cons w ts ws tss hw h ih =>
    have hend : Gap ['\n'] [] := .blank rfl (.none [])
    cases h with
    | nil =>
      rw [joinChunks]
      exact (hw ['\n'] (breaks_cons (by decide) _)).lexes_append (.done hend)
    | cons hw' h =>
      rw [joinChunks, List.flatten_cons]
      refine (hw _ (breaks_cons (by decide) _)).lexes_append (.of_gap ?_ ih)
      exact .blank rfl (.blank rfl (.none _))
      simp

/-- The text of a declaration has the tokens of the declaration, if it can be written: a kind, a path and
the tokens of the body. -/
theorem hasTokens_declarationText (style : RenderStyle) {d : Declaration} (h : d.Writable) :
    HasTokens (declarationText style d) d.tree.tokens := by
  intro rest hrest
  -- From the end of the text to its beginning, so that what follows a token is always a text that has
  -- been treated.
  have hbody : Scans (d.body.toJson.render style.layout ++ rest)
      (.mark '\x7b' :: Tree.memberTokens d.tree.body) rest :=
    Json.scans_render style.layout d.body.toJson hrest
  have hpath : Scans (d.path.toList ++ '\n' :: (d.body.toJson.render style.layout ++ rest))
      (.name d.path.toList :: .mark '\x7b' :: Tree.memberTokens d.tree.body) rest :=
    (Token.Spelled.scans (.name (Path.isValid_iff.mp h.path)) (breaks_cons (by decide) _)).append
      (scans_of_gap (.blank rfl (.none _)) (by simp) hbody)
  have hkind := (Token.Spelled.scans (.name (.word h.kind)) (breaks_cons (by decide) _)).append
    (scans_of_gap (.blank (c := ' ') rfl (.none _)) (by simp) hpath)
  simpa [declarationText, Tree.Entry.tokens, Declaration.tree] using hkind

/-- The text of an import, taken apart where its tokens end. -/
theorem importText_append (path : String) (rest : List Char) :
    importText path ++ rest =
      "import".toList ++ ' ' :: (path.toList ++ [':', ':', '*'] ++ ';' :: rest) := by
  have hword : "import ".toList = "import".toList ++ [' '] := by decide
  have hend : "::*;".toList = [':', ':', '*', ';'] := by decide
  have htext : importText path = "import".toList ++ [' '] ++ path.toList ++ [':', ':', '*', ';'] :=
    congrArg₂ (fun front back => front ++ path.toList ++ back) hword hend
  rw [htext]
  generalize "import".toList = word
  simp only [List.append_assoc, List.cons_append, List.nil_append]

/-- It has the three tokens of an import. -/
theorem scans_importText {path : String} (h : Path.isValid path) (rest : List Char) :
    Scans (importText path ++ rest) (Tree.importTokens path.toList) rest := by
  have hmark : Scans (';' :: rest) [.mark ';'] rest := scans_mark (by decide) rfl
  have hpath : Scans (path.toList ++ [':', ':', '*'] ++ ';' :: rest)
      [.importPath path.toList, .mark ';'] rest :=
    (Token.Spelled.scans (.importPath (Path.isValid_iff.mp h)) (breaks_cons (by decide) _)).append
      hmark
  rw [importText_append]
  exact (Token.Spelled.scans (.name Phrase.isName_import) (breaks_cons (by decide) _)).append
    (scans_of_gap (.blank rfl (.none _)) (by simp) hpath)

/-- The tokens of the lines of imports. -/
theorem scans_imports {paths : List String} (h : ∀ path ∈ paths, Path.isValid path)
    {rest : List Char} :
    Scans ((paths.flatMap fun path => '\n' :: importText path) ++ rest)
      ((paths.map String.toList).flatMap Tree.importTokens) rest := by
  induction paths with
  | nil => rfl
  | cons path paths ih =>
    obtain ⟨hpath, hpaths⟩ := List.forall_mem_cons.mp h
    have hline := scans_of_gap (.blank (c := '\n') rfl (.none _)) (by simp [Tree.importTokens])
      (scans_importText hpath ((paths.flatMap fun path => '\n' :: importText path) ++ rest))
    have hlines := hline.append (ih hpaths)
    simpa using hlines

/-- The tokens of the head of a section, if it has one. -/
def headTokens (s : Section) : Option (List Token) :=
  match s.kind with
  | .plain => none
  | .importAware imports =>
    some (.header s.parserName.toList :: (imports.map String.toList).flatMap Tree.importTokens)

/-- The head of a section has a header and the imports of the section, in their order. A section that is
not written with one has none. -/
theorem hasTokens_headText {s : Section} (h : s.Writable) :
    List.Forall₂ HasTokens (headText s).toList (headTokens s).toList := by
  unfold headText headTokens
  cases hkind : s.kind with
  | plain => exact .nil
  | importAware imports =>
    obtain ⟨hname, himports⟩ := h imports hkind
    refine .cons (fun rest hrest => ?_) .nil
    -- The name of the header ends before the first import or, without one, where the head ends.
    have hbreaks : Breaks ((imports.flatMap fun path => '\n' :: importText path) ++ rest) := by
      cases imports with
      | nil => exact hrest
      | cons path imports => exact breaks_cons (by decide) _
    have hhead := (Token.Spelled.scans (.header hname) hbreaks).append (scans_imports himports)
    simpa using hhead

/-- The tokens of the chunks of leading declarations and of sections after them. -/
def chunkTokens (leading : List Declaration) (groups : List (Section × List Declaration)) :
    List (List Token) :=
  leading.map (·.tree.tokens) ++
    groups.flatMap fun g => (headTokens g.1).toList ++ g.2.map (·.tree.tokens)

/-- The same for declarations in a row. -/
theorem hasTokens_declarations (style : RenderStyle) {ds : List Declaration}
    (h : ∀ d ∈ ds, d.Writable) :
    List.Forall₂ HasTokens (ds.map (declarationText style)) (ds.map (·.tree.tokens)) := by
  rw [List.forall₂_map_left_iff, List.forall₂_map_right_iff, List.forall₂_same]
  exact fun d hd => hasTokens_declarationText style (h d hd)

/-- Each chunk of a composed text has the tokens that belong to it. -/
theorem hasTokens_chunks (style : RenderStyle) {leading : List Declaration}
    {groups : List (Section × List Declaration)} (hleading : ∀ d ∈ leading, d.Writable)
    (hgroups : ∀ g ∈ groups, g.1.Writable ∧ ∀ d ∈ g.2, d.Writable) :
    List.Forall₂ HasTokens (chunks style leading groups) (chunkTokens leading groups) := by
  refine List.rel_append (hasTokens_declarations style hleading) ?_
  -- By induction on the groups, of which each brings its head and its members.
  induction groups with
  | nil => exact .nil
  | cons g groups ih =>
    obtain ⟨⟨hhead, hmembers⟩, hmore⟩ := List.forall_mem_cons.mp hgroups
    rw [List.flatMap_cons, List.flatMap_cons]
    refine List.rel_append ?_ (ih hmore)
    exact List.rel_append (hasTokens_headText hhead) (hasTokens_declarations style hmembers)

/-! ### The derivation -/

/-- The blocks that groups become: the declarations up to the first group with a head, and the blocks
from there on. -/
def gather :
    List (Section × List Declaration) → List Tree.Entry × List (List Char × Tree.Block)
  | [] => ([], [])
  | (s, ds) :: groups =>
    let (front, blocks) := gather groups
    match s.kind with
    | .plain => (ds.map Declaration.tree ++ front, blocks)
    | .importAware imports =>
      ([], (s.parserName.toList, ⟨imports.map String.toList, ds.map Declaration.tree ++ front⟩) ::
        blocks)

/-- The derivation of the text of leading declarations and of sections after them. -/
def arrange (leading : List Declaration) (groups : List (Section × List Declaration)) :
    Tree.Document :=
  ⟨⟨[], leading.map Declaration.tree ++ (gather groups).1⟩, (gather groups).2⟩

/-- Gathering groups into blocks keeps the tokens in order. -/
theorem tokens_gather (groups : List (Section × List Declaration)) :
    (gather groups).1.flatMap Tree.Entry.tokens ++
        (gather groups).2.flatMap Tree.sectionTokens =
      (groups.flatMap fun g => (headTokens g.1).toList ++ g.2.map (·.tree.tokens)).flatten := by
  -- By induction on the groups. A group with a head begins a block, one without goes on with the
  -- block before it.
  induction groups with
  | nil => rfl
  | cons g groups ih =>
    obtain ⟨s, ds⟩ := g
    rw [List.flatMap_cons, List.flatten_append, ← ih, gather, headTokens]
    cases s.kind with
    | plain => simp [List.flatMap_def, Function.comp_def]
    | importAware imports =>
      simp [Tree.sectionTokens, Tree.Block.tokens, List.flatMap_def, Function.comp_def]

/-- The document that is arranged has the tokens of the chunks, one after another. -/
theorem tokens_arrange (leading : List Declaration) (groups : List (Section × List Declaration)) :
    (arrange leading groups).tokens = (chunkTokens leading groups).flatten := by
  rw [chunkTokens, List.flatten_append, ← tokens_gather]
  simp [arrange, Tree.Document.tokens, Tree.Block.tokens, List.flatMap_def, Function.comp_def]

/-- Gathering keeps the declarations, too. -/
theorem entries_gather (groups : List (Section × List Declaration)) :
    (gather groups).1 ++ (gather groups).2.flatMap (·.2.entries) =
      (groups.flatMap (·.2)).map Declaration.tree := by
  -- By induction on the groups. Whether one begins a block of its own or not, its members come first.
  induction groups with
  | nil => rfl
  | cons g groups ih =>
    obtain ⟨s, ds⟩ := g
    rw [List.flatMap_cons, List.map_append, ← ih, gather]
    cases s.kind <;> simp

/-- The document that is arranged has all declarations, in the order in which they are written. -/
theorem entries_arrange (leading : List Declaration) (groups : List (Section × List Declaration)) :
    (arrange leading groups).entries =
      (leading ++ groups.flatMap (·.2)).map Declaration.tree := by
  rw [List.map_append, ← entries_gather]
  simp [arrange, Tree.Document.entries]

/-- What the text of leading declarations and sections means. -/
theorem means_arrange (leading : List Declaration) (groups : List (Section × List Declaration)) :
    (arrange leading groups).Means
      ((leading ++ groups.flatMap (·.2)).map (Element.declaration ·.withoutSource) ++
        ((arrange leading groups).index?.map .sectionIndex).toList) := by
  refine ⟨(leading ++ groups.flatMap (·.2)).map Declaration.withoutSource, ?_, ?_⟩
  swap
  · rw [List.map_map]
    rfl
  rw [entries_arrange, List.forall₂_map_left_iff, List.forall₂_map_right_iff, List.forall₂_same]
  exact fun d _ => d.means_tree

/-- **Parsing what is composed.** A composed text is accepted. It means the declarations that no
section claims, those of one section after another, and an index of its blocks. -/
theorem parse_of_compose {style : RenderStyle} {es : List Element} {text : String}
    (h : compose style es = .ok text) : ∃ index leading groups, onlyIndex es = .ok index ∧
      claimAll (sectionsOf index) (Element.declarations es) = (groups, leading) ∧
      parse text false =
        .ok ((leading ++ groups.flatMap (·.2)).map (Element.declaration ·.withoutSource) ++
          ((arrange leading groups).index?.map .sectionIndex).toList) := by
  obtain ⟨index, hindex, ⟨hdeclarations, hsections⟩, htext⟩ := compose_eq_ok.mp h
  generalize hclaim : claimAll (sectionsOf index) (Element.declarations es) = claimed at htext
  obtain ⟨groups, leading⟩ := claimed
  dsimp only at htext
  -- All declarations that are written have been checked, wherever they have been dealt out to.
  obtain ⟨hleading, hgroups⟩ := (forall_claimAll hclaim).mp ⟨hdeclarations, hsections⟩
  have hall : ∀ d ∈ leading ++ groups.flatMap (·.2), d.Writable :=
    List.forall_mem_append.mpr
      ⟨hleading, List.forall_mem_flatMap.mpr fun g hg => (hgroups g hg).2⟩
  refine ⟨index, leading, groups, hindex, hclaim, ?_⟩
  refine parse_eq_ok.mpr ⟨arrange leading groups, ⟨?_, ?_⟩, ?_, means_arrange leading groups⟩
  · rw [htext, tokens_arrange]
    exact lexes_joinChunks (hasTokens_chunks style hleading hgroups)
  · rw [entries_arrange, List.forall_mem_map]
    exact fun d hd => (hall d hd).kind
  · rw [entries_arrange, List.forall_mem_map]
    intro d hd
    rw [d.depth_tree]
    exact (hall d hd).depth

end Grammar

end ModelText
