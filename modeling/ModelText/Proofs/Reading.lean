import ModelText.Proofs.Denotation
import ModelText.Proofs.Value

/-!
# Documents are read along their derivations

Declarations, imports, section headers and documents, as `ModelText.Proofs.Value` has it for bodies.
-/

namespace ModelText.Grammar

namespace Phrase

/-! ### Declarations and imports -/

/-- A declaration is a kind, a path and a body. As many containers may open in the body as there are
characters left, so that the bound never stops a reading. -/
theorem result_declaration_eq_some {cs rest : List Char} {e : Entry} :
    (declaration cs).result = some (e, rest) ↔
      ∃ mid mid', identifier cs = some (e.kind, mid) ∧
        qualifiedName (skip mid) = some (e.path, mid') ∧
        (bracketed "\x7b" "\x7d" (member (value (skip mid').length)) (skip mid')).result =
          some (e.body, rest) ∧ e.start = cs ∧ e.stop = rest := by
  rw [declaration, result_rule, result_bind_of_eq (result_here cs), result_bind_eq_some]
  constructor
  · -- The kind, the path and the body one after another, with a gap between them.
    rintro ⟨kind, mid, hkind, h⟩
    rw [result_bind_of_eq (result_blanks mid)] at h
    obtain ⟨path, mid', hpath, h⟩ := result_bind_eq_some.mp h
    rw [result_bind_of_eq (result_blanks mid')] at h
    obtain ⟨ms, rest', hms, h⟩ := result_bind_eq_some.mp h
    rw [result_bind_of_eq (result_here rest')] at h
    cases h
    rw [result_rule] at hkind hpath
    rw [body, members, result_rule] at hms
    exact ⟨mid, mid', hkind, hpath, hms, rfl, rfl⟩
  · rintro ⟨mid, mid', hkind, hpath, hbody, hstart, hstop⟩
    refine ⟨e.kind, mid, by rw [result_rule]; exact hkind, ?_⟩
    rw [result_bind_of_eq (result_blanks mid)]
    refine result_bind_eq_some.mpr ⟨e.path, mid', by rw [result_rule]; exact hpath, ?_⟩
    rw [result_bind_of_eq (result_blanks mid')]
    refine result_bind_eq_some.mpr ⟨e.body, rest, ?_, ?_⟩
    · rw [body, members, result_rule]
      exact hbody
    · rw [result_bind_of_eq (result_here rest), ← hstart, ← hstop]
      rfl

/-- The keyword `import` is read where the word is and no inner character follows, so a longer name that
begins with it is left alone. -/
theorem importKeyword_eq_some_iff {cs w rest : List Char} :
    importKeyword cs = some (w, rest) ↔
      w = "import".toList ∧ cs = "import".toList ++ rest ∧
        ∀ c ∈ rest.head?, ¬ Path.isInner c := by
  unfold importKeyword
  split
  · next c rest' hfound =>
    obtain ⟨-, hcs⟩ := exactly_eq_some_iff.mp hfound
    -- The keyword is found with a character after it, which decides.
    split
    · next hc =>
      constructor
      · simp
      · rintro ⟨-, hcs', hrest⟩
        rw [hcs] at hcs'
        obtain rfl := List.append_cancel_left hcs'
        exact absurd hc (hrest c rfl)
    · next hc =>
      rw [Option.some.injEq, Prod.mk.injEq]
      constructor
      · rintro ⟨rfl, rfl⟩
        refine ⟨rfl, hcs, ?_⟩
        rintro d hd
        cases hd
        exact hc
      · rintro ⟨rfl, hcs', -⟩
        rw [hcs] at hcs'
        exact ⟨rfl, List.append_cancel_left hcs'⟩
  · next hother =>
    -- The keyword is at the end of the text, or is not found at all.
    rw [exactly_eq_some_iff]
    constructor
    · rintro ⟨rfl, hcs⟩
      refine ⟨rfl, hcs, ?_⟩
      rintro c hc
      obtain ⟨r, rfl⟩ := List.head?_eq_some_iff.mp hc
      exact absurd (exactly_eq_some_iff.mpr ⟨rfl, hcs⟩) (hother _ c r)
    · rintro ⟨rfl, hcs, -⟩
      exact ⟨rfl, hcs⟩

/-- An import is the keyword, a path and a semicolon. -/
theorem result_importStatement_eq_some {cs p rest : List Char} :
    (importStatement cs).result = some (p, rest) ↔
      ∃ w mid mid', importKeyword cs = some (w, mid) ∧ importPath (skip mid) = some (p, mid') ∧
        skip mid' = ';' :: rest := by
  rw [importStatement, result_rule, result_bind_eq_some]
  -- The three tokens one after another, with the gaps between them; the names of the rules play no part
  -- in what is found.
  constructor
  · rintro ⟨w, mid, hw, h⟩
    rw [result_bind_of_eq (result_blanks mid)] at h
    obtain ⟨path, mid', hpath, h⟩ := result_bind_eq_some.mp h
    rw [result_bind_of_eq (result_blanks mid')] at h
    obtain ⟨v, rest', hv, h⟩ := result_bind_eq_some.mp h
    cases h
    rw [result_rule] at hw hpath
    exact ⟨w, mid, mid', hw, hpath, (result_token_eq_some.mp hv).2⟩
  · rintro ⟨w, mid, mid', hw, hpath, hmid⟩
    refine ⟨w, mid, by rw [result_rule]; exact hw, ?_⟩
    rw [result_bind_of_eq (result_blanks mid)]
    refine result_bind_eq_some.mpr ⟨p, mid', by rw [result_rule]; exact hpath, ?_⟩
    rw [result_bind_of_eq (result_blanks mid'), hmid]
    exact result_bind_eq_some.mpr ⟨_, rest, result_token_append ";" rest, rfl⟩

/-- Where another name follows, the text does not go on with a separator. -/
theorem head_of_qualifiedName {mid p rest : List Char} (hmid : ∀ c ∈ mid.head?, ¬ Path.isInner c)
    (h : qualifiedName (skip mid) = some (p, rest)) :
    ∀ c ∈ mid.head?, ¬ Path.isInner c ∧ c ≠ ':' := by
  intro c hc
  refine ⟨hmid c hc, ?_⟩
  -- A colon begins a token, so no gap is skipped at it, and the name would begin with it.
  rintro rfl
  obtain ⟨r, rfl⟩ := List.head?_eq_some_iff.mp hc
  obtain ⟨heq, hp⟩ := munches_qualifiedName.sound h
  rw [skip_cons_of_classOf? rfl] at heq
  obtain ⟨d, ds, rfl, hd⟩ := hp.exists_initial
  rw [← (List.cons.inj heq).1] at hd
  exact absurd hd (by decide)

/-- An identifier ends where no inner character follows. -/
theorem not_isInner_of_identifier {cs w rest : List Char} (h : identifier cs = some (w, rest)) :
    ∀ c ∈ rest.head?, ¬ Path.isInner c := by
  obtain ⟨-, hw, hmax⟩ := munches_identifier.eq_some_iff.mp h
  intro c hc hinner
  obtain ⟨r, rfl⟩ := List.head?_eq_some_iff.mp hc
  -- The identifier would have gone on with an inner character.
  have hlonger : Path.isWord (w ++ [c]) := by
    obtain _ | ⟨d, ds⟩ := w
    · simp at hw
    · simp_all
  exact absurd (hmax [c] r rfl hlonger) (by simp)

/-- A declaration that is read is there, and its kind is an identifier. -/
theorem declaration_sound {cs rest : List Char} {e : Entry}
    (h : (declaration (skip cs)).result = some (e, rest)) :
    Scans cs e.tree.tokens rest ∧ Path.isWord e.kind := by
  obtain ⟨mid, mid', hkind, hpath, hbody, -, -⟩ := result_declaration_eq_some.mp h
  obtain ⟨hcs, hword⟩ := munches_identifier.sound hkind
  refine ⟨⟨mid, ?_, mid', ?_, ?_⟩, hword⟩
  · -- The kind is an identifier, and no name goes on from it, since a path follows.
    rw [hcs]
    exact (IsName.word hword).at_name
      (head_of_qualifiedName (not_isInner_of_identifier hkind) hpath)
  · refine Token.at_name_iff.mpr ⟨hpath, ?_⟩
    -- A body follows the path, so the mark of an import does not.
    rintro r rfl
    obtain ⟨mid', hopen, -⟩ := bracketed_cases braces hbody
    rw [skip_cons_of_classOf? rfl] at hopen
    exact absurd (List.cons.inj hopen).1 (by decide)
  · have hscan := bracketed_sound braces (member_sound (value_sound _)) hbody
    simpa only [Entry.tree, Tree.memberTokens_eq, List.map_map, Function.comp_def] using hscan

mutual

/-- A value has more tokens than levels, as each container is opened by a token of its own. -/
theorem depth_lt_length_tokens : ∀ v : Tree.Value, v.depth < v.tokens.length
  | .string _ | .number _ | .word _ => Nat.one_pos
  | .array items => by
    have h := itemsDepth_lt_length_tokens items
    rw [Tree.Value.depth, Tree.Value.tokens, List.length_cons]
    omega
  | .object ms => by
    have h := membersDepth_lt_length_tokens ms
    rw [Tree.Value.depth, Tree.Value.tokens, List.length_cons]
    omega

theorem itemsDepth_lt_length_tokens : ∀ vs : List Tree.Value,
    Tree.itemsDepth vs < (Tree.itemTokens vs).length
  | [] => Nat.one_pos
  | v :: vs => by
    -- The deepest item is the first or one of those behind it.
    have hv := depth_lt_length_tokens v
    have hvs := itemsDepth_lt_length_moreTokens vs
    rw [Tree.itemsDepth, Tree.itemTokens, List.length_append]
    omega

theorem itemsDepth_lt_length_moreTokens : ∀ vs : List Tree.Value,
    Tree.itemsDepth vs < (Tree.moreItemTokens vs).length
  | [] => Nat.one_pos
  | v :: vs => by
    have hv := depth_lt_length_tokens v
    have hvs := itemsDepth_lt_length_moreTokens vs
    rw [Tree.itemsDepth, Tree.moreItemTokens, List.length_cons, List.length_append]
    omega

theorem membersDepth_lt_length_tokens : ∀ ms : List (List Char × Tree.Value),
    Tree.membersDepth ms < (Tree.memberTokens ms).length
  | [] => Nat.one_pos
  | (name, v) :: ms => by
    have hv := depth_lt_length_tokens v
    have hms := membersDepth_lt_length_moreTokens ms
    rw [Tree.membersDepth, Tree.memberTokens]
    simp only [List.length_cons, List.length_append]
    omega

theorem membersDepth_lt_length_moreTokens : ∀ ms : List (List Char × Tree.Value),
    Tree.membersDepth ms < (Tree.moreMemberTokens ms).length
  | [] => Nat.one_pos
  | (name, v) :: ms => by
    have hv := depth_lt_length_tokens v
    have hms := membersDepth_lt_length_moreTokens ms
    rw [Tree.membersDepth, Tree.moreMemberTokens]
    simp only [List.length_cons, List.length_append]
    omega

end

/-- A name that is a single identifier is found by the lexeme of identifiers. -/
theorem identifier_of_at_name {cs w rest : List Char} (hw : Path.isWord w)
    (h : (Token.name w).At cs rest) : identifier cs = some (w, rest) := by
  obtain ⟨_, hn, rfl, hmax⟩ := h
  cases hn with
  | name _ =>
    refine munches_identifier.eq_some_iff.mpr ⟨rfl, hw, fun more rest' hrest hmore => ?_⟩
    exact hmax _ more rest' hrest (.name (.word hmore))

/-- A declaration that is there is read. The kind must be a plain identifier, because a name with `::` in
it is the same sort of token. -/
theorem declaration_complete {e : Tree.Entry} (hkind : Path.isWord e.kind) {cs rest : List Char}
    (h : Scans cs e.tokens rest) :
    ∃ entry : Entry, entry.tree = e ∧ (declaration (skip cs)).result = some (entry, rest) := by
  obtain ⟨mid, hatKind, mid', hatPath, hbody⟩ := h
  -- The reader lets as many containers open as there are characters left, which is enough, since
  -- each of them takes a token.
  have hdepth : Tree.membersDepth e.body < (skip mid').length := by
    have hscan := (scans_iff_of_skip_eq (List.cons_ne_nil _ _) (skip_skip mid')).mpr hbody
    have hlength := hscan.length_le
    have htokens := membersDepth_lt_length_tokens e.body
    rw [List.length_cons] at hlength
    omega
  obtain ⟨ls, hls, hread⟩ := object_complete (members_complete e.body hdepth) hbody
  refine ⟨⟨e.kind, e.path, ls, skip cs, rest⟩, by rw [Entry.tree, hls], ?_⟩
  exact result_declaration_eq_some.mpr ⟨mid, mid', identifier_of_at_name hkind hatKind,
    (Token.at_name_iff.mp hatPath).1, hread, rfl, rfl⟩

/-- The keyword is a name like any other. -/
theorem isName_import : IsName "import".toList :=
  .word rfl

/-- An import is read exactly where its tokens stand. -/
theorem result_importStatement_iff {cs p rest : List Char} :
    (importStatement (skip cs)).result = some (p, rest) ↔
      Scans cs (Tree.importTokens p) rest := by
  rw [result_importStatement_eq_some]
  constructor
  · rintro ⟨w, mid, mid', hw, hpath, hmid⟩
    obtain ⟨rfl, hcs, hhead⟩ := importKeyword_eq_some_iff.mp hw
    refine ⟨mid, ?_, mid', Token.at_importPath_iff.mpr hpath, rest, ?_, rfl⟩
    · rw [hcs]
      exact isName_import.at_name
        (head_of_qualifiedName hhead (importPath_eq_some_iff.mp hpath))
    · exact Token.at_mark_iff.mpr ⟨by decide, hmid⟩
  · rintro ⟨mid, hword, mid', hpath, _, hend, rfl⟩
    refine ⟨_, mid, mid', importKeyword_eq_some_iff.mpr ⟨rfl, ?_, ?_⟩,
      Token.at_importPath_iff.mp hpath, (Token.at_mark_iff.mp hend).2⟩
    · exact (munches_qualifiedName.sound (Token.at_name_iff.mp hword).1).1
    · -- No inner character follows, or the keyword would be the beginning of a longer name.
      exact not_isInner_of_identifier (identifier_of_at_name rfl hword)

/-- A header is read where its token is. -/
theorem result_sectionHeader_iff {cs n rest : List Char} :
    (sectionHeader cs).result = some (n, rest) ↔ (Token.header n).At cs rest := by
  rw [sectionHeader, result_rule, result_bind_eq_some, Token.at_header_iff]
  constructor
  · rintro ⟨w, mid, hmark, h⟩
    rw [result_rule] at h
    exact ⟨mid, (exactly_eq_some_iff.mp hmark).2, h⟩
  · rintro ⟨mid, rfl, h⟩
    have hmark : headerMark ("###".toList ++ mid) = some ("###".toList, mid) :=
      exactly_eq_some_iff.mpr ⟨rfl, rfl⟩
    refine ⟨_, mid, hmark, ?_⟩
    rw [result_rule]
    exact h

/-! ### Tokens up to a gap -/

/-- The text begins with the tokens, and up to a gap `rest` follows them. -/
def Reaches (cs : List Char) (ts : List Token) (rest : List Char) : Prop :=
  ∃ mid, Scans cs ts mid ∧ skip mid = skip rest

/-- No token reaches as far as a gap does. -/
theorem reaches_nil {cs rest : List Char} : Reaches cs [] rest ↔ skip cs = skip rest := by
  simp [Reaches]

/-- What comes after a gap does not depend on the gap. -/
theorem reaches_iff_of_skip_eq {cs ds : List Char} (h : skip cs = skip ds) (ts : List Token)
    (rest : List Char) : Reaches cs ts rest ↔ Reaches ds ts rest := by
  cases ts with
  | nil => rw [reaches_nil, reaches_nil, h]
  | cons t ts =>
    unfold Reaches
    simp only [scans_iff_of_skip_eq (List.cons_ne_nil t ts) h]

/-- Tokens reach somewhere in two steps as in one. The gap between the steps may be counted to either of
them. -/
theorem reaches_append {cs rest : List Char} {ts us : List Token} :
    Reaches cs (ts ++ us) rest ↔ ∃ mid, Reaches cs ts mid ∧ Reaches mid us rest := by
  constructor
  · -- Forward, the first step ends just where the second begins.
    rintro ⟨last, h, hlast⟩
    obtain ⟨mid, hts, hus⟩ := scans_append.mp h
    exact ⟨mid, ⟨mid, hts, rfl⟩, last, hus, hlast⟩
  · rintro ⟨mid, ⟨mid', hts, hskip⟩, hus⟩
    -- The gap between the two is skipped by the tokens that come after it.
    obtain ⟨last, hus, hlast⟩ := (reaches_iff_of_skip_eq hskip us rest).mpr hus
    exact ⟨last, scans_append.mpr ⟨mid', hts, hus⟩, hlast⟩

/-- A text consists of the tokens that reach its end. -/
theorem lexes_iff_reaches {cs : List Char} {ts : List Token} : Lexes cs ts ↔ Reaches cs ts [] := by
  rw [lexes_iff, Reaches, skip_nil]

/-- There are at most as many tokens as characters behind the first gap. -/
theorem Reaches.length_le {cs rest : List Char} {ts : List Token} (h : Reaches cs ts rest) :
    ts.length ≤ (skip cs).length := by
  obtain ⟨mid, h, -⟩ := (reaches_iff_of_skip_eq (skip_skip cs) ts rest).mpr h
  have hle := h.length_le
  omega

variable {α β : Type}

/-- What a repetition returns is what the text begins with. -/
theorem many_sound {p : Phrase α} {tok : α → List Token} {P : α → Prop}
    (hp : ∀ {cs a rest}, (p (skip cs)).result = some (a, rest) → Reaches cs (tok a) rest ∧ P a)
    {cs rest : List Char} {as : List α} (h : (many p (skip cs)).result = some (as, rest)) :
    Reaches cs (as.flatMap tok) rest ∧ ∀ a ∈ as, P a := by
  obtain ⟨rest', hchain, hskip⟩ := chain_of_many h
  clear h
  -- By induction on the rounds, of which each reaches the place where the next one begins.
  induction hchain with
  | nil cs => exact ⟨reaches_nil.mpr hskip, by simp⟩
  | cons ha _ ih =>
    obtain ⟨hreach, hPa⟩ := hp ha
    obtain ⟨hmore, hP⟩ := ih hskip
    exact ⟨reaches_append.mpr ⟨_, hreach, hmore⟩, List.forall_mem_cons.mpr ⟨hPa, hP⟩⟩

/-- A repetition goes through parts that the text begins with. What may follow a part is up to
`Follows`, which has to hold of every text that begins with a part. -/
theorem chain_of_reaches (erase : α → β) (Follows : List Char → Prop) {p : Phrase α}
    {tok : β → List Token} {bs : List β}
    (hp : ∀ b ∈ bs, ∀ {cs rest}, Reaches cs (tok b) rest → Follows rest →
      ∃ a rest', erase a = b ∧ (p (skip cs)).result = some (a, rest') ∧ skip rest' = skip rest)
    (hnext : ∀ b ∈ bs, ∀ {cs rest}, Reaches cs (tok b) rest → Follows cs)
    {cs rest : List Char} (h : Reaches cs (bs.flatMap tok) rest) (hrest : Follows rest) :
    ∃ as last, as.map erase = bs ∧ Chain p cs as last ∧ skip last = skip rest := by
  -- By induction on the parts. What may follow a part holds of the text where the next part begins.
  induction bs generalizing cs with
  | nil => exact ⟨[], cs, rfl, .nil cs, reaches_nil.mp h⟩
  | cons b bs ih =>
    obtain ⟨hpb, hpbs⟩ := List.forall_mem_cons.mp hp
    obtain ⟨-, hnextbs⟩ := List.forall_mem_cons.mp hnext
    rw [List.flatMap_cons] at h
    obtain ⟨mid, hb, hbs⟩ := reaches_append.mp h
    have hmid : Follows mid ∨ bs = [] := by
      cases bs with
      | nil => exact .inr rfl
      | cons b' bs =>
        rw [List.flatMap_cons] at hbs
        obtain ⟨_, hb', -⟩ := reaches_append.mp hbs
        exact .inl (hnextbs b' List.mem_cons_self hb')
    -- The last part is followed by `rest` itself.
    obtain ⟨a, mid', ha, hread, hskip⟩ : ∃ a mid', erase a = b ∧
        (p (skip cs)).result = some (a, mid') ∧ skip mid' = skip mid := by
      rcases hmid with hmid | rfl
      · exact hpb hb hmid
      · have hend := reaches_nil.mp hbs
        obtain ⟨mid'', hscan, hmid''⟩ := hb
        obtain ⟨a, mid', ha, hread, hskip⟩ := hpb ⟨mid'', hscan, hmid''.trans hend⟩ hrest
        exact ⟨a, mid', ha, hread, hskip.trans hend.symm⟩
    obtain ⟨as, last, has, hchain, hlast⟩ :=
      ih hpbs hnextbs ((reaches_iff_of_skip_eq hskip _ rest).mpr hbs)
    exact ⟨a :: as, last, by rw [List.map_cons, ha, has], .cons hread hchain, hlast⟩

/-- If each part has a token, there are at most as many parts as tokens. -/
theorem length_le_flatMap {tok : β → List Token} (hne : ∀ b, tok b ≠ []) (bs : List β) :
    bs.length ≤ (bs.flatMap tok).length := by
  -- By induction on the parts.
  induction bs with
  | nil => simp
  | cons b bs ih =>
    have hb := List.length_pos_iff.mpr (hne b)
    simp only [List.flatMap_cons, List.length_cons, List.length_append]
    omega

/-- A repetition returns the parts that the text begins with, if it stops after them. -/
theorem many_complete (erase : α → β) (Follows : List Char → Prop) {p : Phrase α}
    {tok : β → List Token} {bs : List β}
    (hp : ∀ b ∈ bs, ∀ {cs rest}, Reaches cs (tok b) rest → Follows rest →
      ∃ a rest', erase a = b ∧ (p (skip cs)).result = some (a, rest') ∧ skip rest' = skip rest)
    (hnext : ∀ b ∈ bs, ∀ {cs rest}, Reaches cs (tok b) rest → Follows cs)
    (hne : ∀ b, tok b ≠ []) {cs rest : List Char} (h : Reaches cs (bs.flatMap tok) rest)
    (hrest : Follows rest) (hstop : (p (skip rest)).result = none) :
    ∃ as rest', as.map erase = bs ∧ (many p (skip cs)).result = some (as, rest') ∧
      skip rest' = skip rest := by
  obtain ⟨as, last, has, hchain, hlast⟩ := chain_of_reaches erase Follows hp hnext h hrest
  -- Each part takes a token, so there are not more parts than characters.
  have hlength : as.length ≤ (skip cs).length + 1 := by
    have hle := h.length_le
    have htokens := length_le_flatMap hne bs
    have heq := congrArg List.length has
    rw [List.length_map] at heq
    omega
  obtain ⟨rest', hmany, hskip⟩ := many_of_chain hchain (by rw [hlast]; exact hstop) hlength
  exact ⟨as, rest', has, hmany, hskip.trans hlast⟩

/-! ### Blocks -/

/-- The imports and the declarations of a block are read one after the other. -/
def ReadsBlock (cs : List Char) (b : Block) (rest : List Char) : Prop :=
  ∃ mid, (many importStatement cs).result = some (b.imports, mid) ∧
    (many declaration (skip mid)).result = some (b.entries, rest)

/-- The leading block has no header. -/
theorem result_leadingBlock_eq_some {cs rest : List Char} {b : Block} :
    (leadingBlock cs).result = some (b, rest) ↔
      ReadsBlock cs b rest ∧ b.header = none ∧ b.start = cs ∧ b.stop = rest := by
  rw [leadingBlock, result_rule, result_bind_of_eq (result_here cs), result_bind_eq_some]
  constructor
  · rintro ⟨imports, mid, himports, h⟩
    rw [result_bind_of_eq (result_blanks mid)] at h
    obtain ⟨entries, rest', hentries, h⟩ := result_bind_eq_some.mp h
    rw [result_bind_of_eq (result_here rest')] at h
    cases h
    exact ⟨⟨mid, himports, hentries⟩, rfl, rfl, rfl⟩
  · rintro ⟨⟨mid, himports, hentries⟩, hheader, hstart, hstop⟩
    refine ⟨b.imports, mid, himports, ?_⟩
    rw [result_bind_of_eq (result_blanks mid)]
    refine result_bind_eq_some.mpr ⟨b.entries, rest, hentries, ?_⟩
    rw [result_bind_of_eq (result_here rest), ← hheader, ← hstart, ← hstop]
    rfl

/-- Any other block begins with one, and has its name. -/
theorem result_headedBlock_eq_some {cs rest : List Char} {b : Block} :
    (headedBlock cs).result = some (b, rest) ↔
      ∃ n mid, (sectionHeader cs).result = some (n, mid) ∧ ReadsBlock (skip mid) b rest ∧
        b.header = some n ∧ b.start = cs ∧ b.stop = rest := by
  rw [headedBlock, result_rule, result_bind_of_eq (result_here cs), result_bind_eq_some]
  constructor
  · rintro ⟨n, mid, hn, h⟩
    rw [result_bind_of_eq (result_blanks mid)] at h
    -- After the header it is as in the leading block.
    obtain ⟨imports, mid', himports, h⟩ := result_bind_eq_some.mp h
    rw [result_bind_of_eq (result_blanks mid')] at h
    obtain ⟨entries, rest', hentries, h⟩ := result_bind_eq_some.mp h
    rw [result_bind_of_eq (result_here rest')] at h
    cases h
    exact ⟨n, mid, hn, ⟨mid', himports, hentries⟩, rfl, rfl, rfl⟩
  · rintro ⟨n, mid, hn, ⟨mid', himports, hentries⟩, hheader, hstart, hstop⟩
    refine ⟨n, mid, hn, ?_⟩
    rw [result_bind_of_eq (result_blanks mid)]
    refine result_bind_eq_some.mpr ⟨b.imports, mid', himports, ?_⟩
    rw [result_bind_of_eq (result_blanks mid')]
    refine result_bind_eq_some.mpr ⟨b.entries, rest, hentries, ?_⟩
    rw [result_bind_of_eq (result_here rest), ← hheader, ← hstart, ← hstop]
    rfl

/-- After a block comes a header or the end of the text. -/
def EndsBlock (rest : List Char) : Prop :=
  ∀ c ∈ (skip rest).head?, c = '#'

/-- Where a name comes next, its first character tells. -/
theorem reaches_name {cs rest w : List Char} {ts : List Token}
    (h : Reaches cs (.name w :: ts) rest) : ∃ c ∈ (skip cs).head?, classOf? c = some .name := by
  obtain ⟨_, ⟨mid, ⟨w', hw, hcs, -⟩, -⟩, -⟩ := h
  obtain ⟨c, ds, rfl, hc⟩ := hw.exists_first
  exact ⟨c, by rw [hcs]; rfl, hc⟩

/-- Nothing that begins with a name can come after a block. -/
theorem EndsBlock.not_reaches {cs rest w : List Char} {ts : List Token} (h : EndsBlock cs) :
    ¬ Reaches cs (.name w :: ts) rest := by
  intro hname
  obtain ⟨c, hmem, hc⟩ := reaches_name hname
  rw [h c hmem] at hc
  cases hc

/-- At the end of a block there is no declaration. -/
theorem result_declaration_eq_none {cs : List Char} (h : EndsBlock cs) :
    (declaration (skip cs)).result = none := by
  rw [Option.eq_none_iff_forall_ne_some]
  rintro ⟨e, rest⟩ he
  exact h.not_reaches ⟨rest, (declaration_sound he).1, rfl⟩

/-- What looks like an import is none where a declaration stands: the kind of a declaration may be
spelled like the keyword, but what follows it is a path without the mark of an import. -/
theorem result_importStatement_eq_none {cs rest : List Char} {es : List Tree.Entry}
    (h : Reaches cs (es.flatMap Tree.Entry.tokens) rest) (hrest : EndsBlock rest) :
    (importStatement (skip cs)).result = none := by
  rw [Option.eq_none_iff_forall_ne_some]
  rintro ⟨p, rest'⟩ hp
  have himport := result_importStatement_iff.mp hp
  cases es with
  | nil =>
    -- Without a declaration the block ends here, and no name begins.
    have hend : EndsBlock cs := by
      unfold EndsBlock
      rwa [reaches_nil.mp h]
    exact hend.not_reaches ⟨rest', himport, rfl⟩
  | cons e es =>
    rw [List.flatMap_cons] at h
    obtain ⟨_, ⟨_, ⟨mid, hkind, _, hpath, -⟩, -⟩, -⟩ := reaches_append.mp h
    obtain ⟨mid', hword, _, hmark, -⟩ := himport
    -- The keyword and the kind are the same name, so the same path follows either of them.
    have hmid : mid = mid' := by
      have hname := (Token.at_name_iff.mp hkind).1
      rw [(Token.at_name_iff.mp hword).1] at hname
      exact (Prod.mk.inj (Option.some.inj hname)).2.symm
    obtain ⟨hname, hnot⟩ := Token.at_name_iff.mp hpath
    rw [hmid, importPath_eq_some_iff.mp (Token.at_importPath_iff.mp hmark)] at hname
    exact hnot _ (Prod.mk.inj (Option.some.inj hname)).2.symm

/-- The imports and declarations that a block is read with are there. -/
theorem block_sound {cs rest : List Char} {b : Block} (h : ReadsBlock (skip cs) b rest) :
    Reaches cs b.tree.tokens rest ∧ ∀ e ∈ b.tree.entries, Path.isWord e.kind := by
  obtain ⟨mid, himports, hentries⟩ := h
  -- Both repetitions are sound, and the second keeps that kinds are identifiers.
  obtain ⟨himports, -⟩ := many_sound (P := fun _ => True)
    (fun h => ⟨⟨_, result_importStatement_iff.mp h, rfl⟩, trivial⟩) himports
  obtain ⟨hentries, hkinds⟩ := many_sound (P := fun e : Entry => Path.isWord e.kind = true)
    (fun h => ⟨⟨_, (declaration_sound h).1, rfl⟩, (declaration_sound h).2⟩) hentries
  refine ⟨reaches_append.mpr ⟨mid, himports, ?_⟩, List.forall_mem_map.mpr hkinds⟩
  rwa [Block.tree, List.flatMap_map]

/-- The imports and declarations of a block are read as far as the block goes, if a header or the end of
the text follows it. -/
theorem block_complete {cs rest : List Char} {b : Tree.Block}
    (hkinds : ∀ e ∈ b.entries, Path.isWord e.kind) (h : Reaches cs b.tokens rest)
    (hrest : EndsBlock rest) (header : Option (List Char)) (start : List Char) :
    ∃ block : Block, block.tree = b ∧ ReadsBlock (skip cs) block block.stop ∧
      skip block.stop = skip rest ∧ block.header = header ∧ block.start = start := by
  obtain ⟨mid, himports, hentries⟩ := reaches_append.mp h
  -- The imports stop where the declarations begin, and these stop where the block ends.
  obtain ⟨imports, mid', himports', hreadImports, hmid⟩ := many_complete id
    (fun _ => True) (p := importStatement) (fun p _ cs rest h _ => by
      obtain ⟨rest', hscan, hskip⟩ := h
      exact ⟨p, rest', rfl, result_importStatement_iff.mpr hscan, hskip⟩)
    (fun _ _ _ _ _ => trivial) (fun _ => List.cons_ne_nil _ _) himports trivial
    (result_importStatement_eq_none hentries hrest)
  obtain ⟨entries, rest', hentries', hreadEntries, hskip⟩ := many_complete Entry.tree
    (fun _ => True) (p := declaration) (fun e he cs rest h _ => by
      obtain ⟨rest', hscan, hskip⟩ := h
      obtain ⟨entry, hentry, hread⟩ := declaration_complete (hkinds e he) hscan
      exact ⟨entry, rest', hentry, hread, hskip⟩)
    (fun _ _ _ _ _ => trivial) (fun _ => List.cons_ne_nil _ _) hentries trivial
    (result_declaration_eq_none hrest)
  rw [List.map_id] at himports'
  rw [← hmid] at hreadEntries
  exact ⟨⟨header, imports, entries, start, rest'⟩, by rw [Block.tree, himports', hentries'],
    ⟨mid', hreadImports, hreadEntries⟩, hskip, rfl, rfl⟩

/-! ### Sections and documents -/

/-- A block that is read with its header is there. -/
theorem headedBlock_sound {cs rest : List Char} {b : Block}
    (h : (headedBlock (skip cs)).result = some (b, rest)) :
    Reaches cs (Tree.sectionTokens b.sectionTree) rest ∧
      b.header.isSome ∧ ∀ e ∈ b.tree.entries, Path.isWord e.kind := by
  obtain ⟨n, mid, hheader, hblock, hn, -, -⟩ := result_headedBlock_eq_some.mp h
  obtain ⟨⟨rest', hscan, hskip⟩, hkinds⟩ := block_sound hblock
  refine ⟨⟨rest', ⟨mid, ?_, hscan⟩, hskip⟩, by rw [hn]; rfl, hkinds⟩
  rw [Block.sectionTree, hn]
  exact result_sectionHeader_iff.mp hheader

/-- A block that is there with its header is read, up to a gap. -/
theorem headedBlock_complete {cs rest : List Char} {s : List Char × Tree.Block}
    (hkinds : ∀ e ∈ s.2.entries, Path.isWord e.kind)
    (h : Reaches cs (Tree.sectionTokens s) rest) (hrest : EndsBlock rest) :
    ∃ (block : Block) (rest' : List Char), block.sectionTree = s ∧
      (headedBlock (skip cs)).result = some (block, rest') ∧ skip rest' = skip rest := by
  obtain ⟨last, ⟨mid, hheader, hscan⟩, hlast⟩ := h
  -- The block after the header is complete, and takes the header's name for its own.
  obtain ⟨block, hblock, hread, hskip, hn, hstart⟩ :=
    block_complete hkinds ⟨last, hscan, hlast⟩ hrest (some s.1) (skip cs)
  refine ⟨block, block.stop, by rw [Block.sectionTree, hblock, hn]; rfl, ?_, hskip⟩
  exact result_headedBlock_eq_some.mpr
    ⟨s.1, mid, result_sectionHeader_iff.mpr hheader, hread, hn, hstart, rfl⟩

/-- A section begins with its header. -/
theorem endsBlock_of_reaches_section {cs rest : List Char} {s : List Char × Tree.Block}
    (h : Reaches cs (Tree.sectionTokens s) rest) : EndsBlock cs := by
  obtain ⟨_, ⟨mid, hheader, -⟩, -⟩ := h
  obtain ⟨mid', hcs, -⟩ := Token.at_header_iff.mp hheader
  intro c hc
  rw [hcs] at hc
  exact (Option.some.inj hc).symm

/-- In front of the sections, and at the end of a text, a block ends. -/
theorem endsBlock_of_reaches_sections {cs : List Char} {ss : List (List Char × Tree.Block)}
    (h : Reaches cs (ss.flatMap Tree.sectionTokens) []) : EndsBlock cs := by
  -- If there is a section, its header comes next. Otherwise nothing does.
  cases ss with
  | nil =>
    intro c hc
    rw [reaches_nil.mp h, skip_nil] at hc
    cases hc
  | cons s ss =>
    rw [List.flatMap_cons] at h
    obtain ⟨_, hs, -⟩ := reaches_append.mp h
    exact endsBlock_of_reaches_section hs

/-- The empty text ends a block. -/
theorem endsBlock_nil : EndsBlock [] := by
  intro c hc
  rw [skip_nil] at hc
  cases hc

/-- Nothing is left to read a header from. -/
theorem result_headedBlock_nil : (headedBlock []).result = none := by
  rw [Option.eq_none_iff_forall_ne_some]
  rintro ⟨b, rest⟩ hb
  obtain ⟨n, mid, hheader, -⟩ := result_headedBlock_eq_some.mp hb
  obtain ⟨mid', hcs, -⟩ := Token.at_header_iff.mp (result_sectionHeader_iff.mp hheader)
  cases hcs

/-- The end of the input is where no character is left. -/
theorem result_endOfInput_eq_some {cs rest : List Char} :
    (endOfInput cs).result = some ((), rest) ↔ cs = [] ∧ rest = [] := by
  cases cs with
  | nil => simp [endOfInput, rule, eq_comm]
  | cons c cs => simp [endOfInput, rule]

/-- A document is a leading block and the blocks with headers, and nothing behind them but a gap. -/
theorem result_document_eq_some {cs rest : List Char} {d : Document} :
    (document cs).result = some (d, rest) ↔
      ∃ mid mid', (leadingBlock (skip cs)).result = some (d.leading, mid) ∧
        (many headedBlock (skip mid)).result = some (d.sections, mid') ∧ skip mid' = [] ∧
        rest = [] := by
  rw [document, result_rule, result_bind_of_eq (result_blanks cs), result_bind_eq_some]
  -- The phrase goes over the gaps itself, so each step is taken with the gap behind it.
  constructor
  · rintro ⟨leading, mid, hleading, h⟩
    rw [result_bind_of_eq (result_blanks mid)] at h
    obtain ⟨sections, mid', hsections, h⟩ := result_bind_eq_some.mp h
    rw [result_bind_of_eq (result_blanks mid')] at h
    obtain ⟨_, rest', hend, h⟩ := result_bind_eq_some.mp h
    cases h
    exact ⟨mid, mid', hleading, hsections, result_endOfInput_eq_some.mp hend⟩
  · rintro ⟨mid, mid', hleading, hsections, hend⟩
    refine ⟨d.leading, mid, hleading, ?_⟩
    rw [result_bind_of_eq (result_blanks mid)]
    refine result_bind_eq_some.mpr ⟨d.sections, mid', hsections, ?_⟩
    rw [result_bind_of_eq (result_blanks mid')]
    exact result_bind_eq_some.mpr ⟨(), rest, result_endOfInput_eq_some.mpr hend, rfl⟩

end Phrase

/-- A text is read as a document if the phrase for documents matches it. -/
theorem Document.read_eq_ok {text : List Char} {d : Document} :
    Document.read text = .ok d ↔ ∃ rest, (Phrase.document text).result = some (d, rest) := by
  unfold Document.read
  dsimp only
  split
  · next h => simp [h]
  · next h => simp [h]

open Phrase in
/-- **Reading is sound.** The tree of a document that is read derives the text. -/
theorem Document.read_sound {text : List Char} {d : Document} (h : Document.read text = .ok d) :
    d.tree.Derives text ∧ d.Headed := by
  obtain ⟨_, h⟩ := Document.read_eq_ok.mp h
  obtain ⟨mid, mid', hleading, hsections, hend, -⟩ := result_document_eq_some.mp h
  obtain ⟨hblock, hheader, -, -⟩ := result_leadingBlock_eq_some.mp hleading
  obtain ⟨hreach, hkinds⟩ := block_sound hblock
  obtain ⟨hmore, hsections⟩ := many_sound headedBlock_sound hsections
  -- The leading block and the sections reach the end of the text together.
  refine ⟨⟨lexes_iff_reaches.mpr (reaches_append.mpr ⟨mid, hreach, ?_⟩), ?_⟩, hheader, ?_⟩
  · obtain ⟨last, hscan, hlast⟩ := hmore
    rw [Document.tree, List.flatMap_map]
    exact ⟨last, hscan, by rw [hlast, hend, skip_nil]⟩
  · intro e he
    -- A declaration is one of the leading block or of a section.
    rcases List.mem_append.mp he with he | he
    · exact hkinds e he
    · obtain ⟨s, hs, he⟩ := List.mem_flatMap.mp he
      obtain ⟨b, hb, rfl⟩ := List.mem_map.mp hs
      exact (hsections b hb).2 e he
  · exact fun b hb => (hsections b hb).1

open Phrase in
/-- **Reading is complete.** A text that has a derivation is read as that derivation. -/
theorem Document.read_complete {text : List Char} {d : Tree.Document} (h : d.Derives text) :
    ∃ document : Document, Document.read text = .ok document ∧ document.tree = d := by
  obtain ⟨mid, hleading, hsections⟩ := reaches_append.mp (lexes_iff_reaches.mp h.lexes)
  obtain ⟨hkinds, hmoreKinds⟩ := List.forall_mem_append.mp h.kinds
  -- The leading block stops where the sections begin, each of them where the next one begins, and
  -- the last at the end of the text.
  obtain ⟨leading, hl, hread, hskip, hheader, hstart⟩ := block_complete hkinds hleading
    (endsBlock_of_reaches_sections hsections) none (skip text)
  obtain ⟨sections, rest, hs, hmany, hrest⟩ := many_complete Block.sectionTree EndsBlock
    (fun s hs _ _ h hrest => headedBlock_complete
      (fun e he => hmoreKinds e (List.mem_flatMap.mpr ⟨s, hs, he⟩)) h hrest)
    (fun _ _ _ _ h => endsBlock_of_reaches_section h) (fun _ => List.cons_ne_nil _ _) hsections
    endsBlock_nil (by rw [skip_nil]; exact result_headedBlock_nil)
  refine ⟨⟨leading, sections⟩, Document.read_eq_ok.mpr ⟨[], result_document_eq_some.mpr
    ⟨leading.stop, rest, ?_, ?_, ?_, rfl⟩⟩, by rw [Document.tree, hl, hs]⟩
  · exact result_leadingBlock_eq_some.mpr ⟨hread, hheader, hstart, rfl⟩
  · rwa [hskip]
  · rw [hrest, skip_nil]

end ModelText.Grammar
