import ModelText.Proofs.Insertion
import ModelText.Proofs.Reading

/-!
# Where the parts of a document stand

A reader keeps the text that is still to come, so a place in a text is a suffix of it. The declarations
of a document that has been read stand in the text one after another, and those of a block between the
places where the block starts and stops (`Document.placed_of_read`). The grammar is local: a declaration
that is read somewhere in a text is read in the same way from its own characters alone
(`exists_derives_of_declaration`).
-/

namespace ModelText.Grammar

open Phrase

/-! ### Single declarations -/

/-- The derivation of a text that is one declaration. -/
def Tree.Document.single (e : Tree.Entry) : Tree.Document :=
  ⟨⟨[], [e]⟩, []⟩

section Declarations

variable {cs rest : List Char} {e : Entry}

/-- A declaration begins with its kind, without a gap in front. -/
theorem skip_of_declaration (h : (declaration cs).result = some (e, rest)) : skip cs = cs := by
  obtain ⟨mid, -, hkind, -⟩ := result_declaration_eq_some.mp h
  obtain ⟨rfl, hword⟩ := munches_identifier.sound hkind
  obtain ⟨c, ds, hc, hinitial⟩ := (IsName.word hword).exists_initial
  rw [hc]
  exact skip_cons_of_classOf? (classOf?_of_isInitial hinitial) _

/-- **Locality.** A declaration ends where its tokens end, whatever comes after it, so its characters
alone derive the declaration. -/
theorem exists_derives_of_declaration (h : (declaration cs).result = some (e, rest)) :
    ∃ piece, cs = piece ++ rest ∧ piece ≠ [] ∧ (Tree.Document.single e.tree).Derives piece := by
  have hread : (declaration (skip cs)).result = some (e, rest) := by rwa [skip_of_declaration h]
  obtain ⟨hscans, hkind⟩ := declaration_sound hread
  obtain ⟨piece, rfl⟩ := hscans.exists_append
  -- Nothing that could go on with the last token follows at the end of the piece.
  have hend : Scans (piece ++ []) e.tree.tokens [] := hscans.replace nofun
  have halone : Scans piece e.tree.tokens [] := by rwa [List.append_nil] at hend
  have hne : piece ≠ [] := by
    have hlength := halone.length_le
    rintro rfl
    exact absurd hlength (Nat.not_succ_le_zero _)
  have htokens : (Tree.Document.single e.tree).tokens = e.tree.tokens := by
    simp [Tree.Document.single, Tree.Document.tokens, Tree.Block.tokens]
  refine ⟨piece, rfl, hne, ⟨?_, ?_⟩⟩
  · rw [htokens]
    exact lexes_iff.mpr ⟨[], halone, skip_nil⟩
  · intro e' he'
    obtain rfl : e' = e.tree := by simpa [Tree.Document.single, Tree.Document.entries] using he'
    exact hkind

end Declarations

/-! ### Declarations one after another -/

/-- The declarations stand one after another in the text from `cs` on, each where it is read, and `rest`
comes after the last of them. -/
inductive Placed : List Char → List Entry → List Char → Prop
  | nil {cs rest : List Char} (h : rest <:+ cs) : Placed cs [] rest
  | cons {cs rest : List Char} {e : Entry} {es : List Entry} (hstart : e.start <:+ cs)
      (hread : (declaration e.start).result = some (e, e.stop)) (h : Placed e.stop es rest) :
      Placed cs (e :: es) rest

/-- Places in a text are told by what is left of it from there. Skipping leaves an end of the text. -/
theorem isSuffix_skip (cs : List Char) : skip cs <:+ cs := by
  obtain ⟨gap, hgap⟩ := (gap_skip cs).exists_append
  exact ⟨gap, hgap.symm⟩

/-- A declaration leaves an end of the text. -/
theorem isSuffix_of_declaration {cs rest : List Char} {e : Entry}
    (h : (declaration cs).result = some (e, rest)) : rest <:+ cs := by
  obtain ⟨piece, hpiece, -, -⟩ := exists_derives_of_declaration h
  exact ⟨piece, hpiece.symm⟩

namespace Placed

variable {cs mid rest : List Char} {es es' : List Entry}

/-- What is left behind the declarations is an end of the text. -/
theorem isSuffix (h : Placed cs es rest) : rest <:+ cs := by
  -- By induction on the declarations.
  induction h with
  | nil h => exact h
  | cons hstart hread h ih => exact (ih.trans (isSuffix_of_declaration hread)).trans hstart

/-- A text in front does not change where they stand. -/
theorem of_isSuffix (hmid : mid <:+ cs) (h : Placed mid es rest) : Placed cs es rest := by
  cases h with
  | nil h => exact .nil (h.trans hmid)
  | cons hstart hread h => exact .cons (hstart.trans hmid) hread h

/-- Declarations and those behind them stand one after another. -/
theorem append (h : Placed cs es mid) (h' : Placed mid es' rest) : Placed cs (es ++ es') rest := by
  -- By induction on the declarations of the first text.
  induction h with
  | nil h => exact h'.of_isSuffix h
  | cons hstart hread h ih => exact .cons hstart hread (ih h')

/-- Each of the declarations stands in the text. -/
theorem forall_mem (h : Placed cs es rest) : ∀ e ∈ es,
    e.start <:+ cs ∧ rest <:+ e.stop ∧ (declaration e.start).result = some (e, e.stop) := by
  induction h with
  | nil h => exact nofun
  | @cons cs rest e es hstart hread h ih =>
    refine List.forall_mem_cons.mpr ⟨⟨hstart, h.isSuffix, hread⟩, fun e' he' => ?_⟩
    obtain ⟨hstart', hstop', hread'⟩ := ih e' he'
    exact ⟨(hstart'.trans (isSuffix_of_declaration hread)).trans hstart, hstop', hread'⟩

/-- A declaration starts where those before it have stopped. -/
theorem pairwise (h : Placed cs es rest) : es.Pairwise fun e e' => e'.start <:+ e.stop := by
  induction h with
  | nil h => exact .nil
  | cons hstart hread h ih => exact .cons (fun e' he' => (h.forall_mem e' he').1) ih

/-- The rounds of a repetition stand one after another: each begins behind the gap in which the one before
it has ended. -/
theorem of_chain (h : Chain declaration cs es rest) : Placed cs es rest := by
  -- By induction on the rounds.
  induction h with
  | nil cs => exact .nil (List.suffix_refl cs)
  | @cons cs mid rest e es hread h ih =>
    obtain ⟨-, -, -, -, -, hstart, hstop⟩ := result_declaration_eq_some.mp hread
    subst hstop
    rw [← hstart] at hread
    exact .cons (hstart ▸ isSuffix_skip cs) hread ih

/-- So do the declarations that a repetition reads. -/
theorem of_many (h : (many declaration (skip cs)).result = some (es, rest)) : Placed cs es rest := by
  rcases chain_or_of_many h with hchain | ⟨rfl, rfl⟩
  · exact of_chain hchain
  · exact .nil (isSuffix_skip cs)

end Placed

/-! ### Blocks -/

/-- The imports in front of them leave an end of the text as well. -/
theorem isSuffix_of_imports {cs rest : List Char} {paths : List (List Char)}
    (h : (many importStatement (skip cs)).result = some (paths, rest)) : rest <:+ cs := by
  -- By induction on the rounds, as for declarations.
  have hchain : ∀ {cs paths rest}, Chain importStatement cs paths rest → rest <:+ cs := by
    intro cs paths rest hchain
    induction hchain with
    | nil cs => exact List.suffix_refl cs
    | cons hread _ ih =>
      obtain ⟨front, hfront⟩ := (result_importStatement_iff.mp hread).exists_append
      exact ih.trans ⟨front, hfront.symm⟩
  rcases chain_or_of_many h with h | ⟨-, rfl⟩
  · exact hchain h
  · exact isSuffix_skip cs

/-- The block stands in the text from `cs` on, and its declarations stand in the block. -/
structure Block.Placed (cs : List Char) (b : Block) : Prop where
  start : b.start <:+ cs
  entries : Grammar.Placed b.start b.entries b.stop

section Blocks

variable {cs mid rest : List Char} {b : Block}

/-- The declarations of a block come behind its imports. -/
theorem placed_of_readsBlock (h : ReadsBlock (skip cs) b rest) : Placed cs b.entries rest := by
  obtain ⟨mid, himports, hentries⟩ := h
  exact (Placed.of_many hentries).of_isSuffix (isSuffix_of_imports himports)

/-- The block in front begins where the text does, after a gap. -/
theorem Block.Placed.of_leadingBlock (h : (leadingBlock (skip cs)).result = some (b, rest)) :
    b.Placed cs ∧ b.stop = rest := by
  obtain ⟨hreads, -, hstart, hstop⟩ := result_leadingBlock_eq_some.mp h
  rw [← skip_skip] at hreads
  have hplaced := placed_of_readsBlock hreads
  rw [← hstart, ← hstop] at hplaced
  exact ⟨⟨hstart ▸ isSuffix_skip cs, hplaced⟩, hstop⟩

/-- A block with a header begins at its header. -/
theorem Block.Placed.of_headedBlock (h : (headedBlock (skip cs)).result = some (b, rest)) :
    b.Placed cs ∧ b.stop = rest := by
  obtain ⟨n, mid, hheader, hreads, -, hstart, hstop⟩ := result_headedBlock_eq_some.mp h
  obtain ⟨w, -, hw, -⟩ := result_sectionHeader_iff.mp hheader
  have hplaced := (placed_of_readsBlock hreads).of_isSuffix ⟨w, hw.symm⟩
  rw [← hstart, ← hstop] at hplaced
  exact ⟨⟨hstart ▸ isSuffix_skip cs, hplaced⟩, hstop⟩

/-- A text in front does not change where a block stands. -/
theorem Block.Placed.of_isSuffix (hmid : mid <:+ cs) (h : b.Placed mid) : b.Placed cs :=
  ⟨h.start.trans hmid, h.entries⟩

/-- What is left behind a block is an end of the text. -/
theorem Block.Placed.isSuffix (h : b.Placed cs) : b.stop <:+ cs :=
  h.entries.isSuffix.trans h.start

/-- Blocks that are read one after another stand in the text, and so do their declarations. -/
theorem placed_of_chain {bs : List Block} (h : Chain headedBlock cs bs rest) :
    Placed cs (bs.flatMap Block.entries) rest ∧ ∀ b ∈ bs, b.Placed cs := by
  induction h with
  | nil cs => exact ⟨.nil (List.suffix_refl cs), nofun⟩
  | @cons cs mid rest b bs hread h ih =>
    obtain ⟨hb, rfl⟩ := Block.Placed.of_headedBlock hread
    obtain ⟨hentries, hblocks⟩ := ih
    refine ⟨(hb.entries.of_isSuffix hb.start).append hentries, ?_⟩
    exact List.forall_mem_cons.mpr ⟨hb, fun b' hb' => (hblocks b' hb').of_isSuffix hb.isSuffix⟩

end Blocks

/-- **Placement.** The declarations of a document that is read stand in the text one after another, and
each of its blocks stands in the text. -/
theorem Document.placed_of_read {text : List Char} {d : Document} (h : Document.read text = .ok d) :
    (∃ rest, Placed text d.entries rest) ∧ ∀ b ∈ d.leading :: d.sections, b.Placed text := by
  obtain ⟨_, h⟩ := Document.read_eq_ok.mp h
  obtain ⟨mid, mid', hleading, hsections, -, -⟩ := result_document_eq_some.mp h
  obtain ⟨hblock, rfl⟩ := Block.Placed.of_leadingBlock hleading
  have hentries := hblock.entries.of_isSuffix hblock.start
  -- The sections come behind the leading block, and each behind the one before it.
  have hmore : Placed d.leading.stop (d.sections.flatMap Block.entries) mid' ∧
      ∀ b ∈ d.sections, b.Placed d.leading.stop := by
    rcases chain_or_of_many hsections with hchain | ⟨hnil, rfl⟩
    · exact placed_of_chain hchain
    · rw [hnil]
      exact ⟨.nil (isSuffix_skip _), nofun⟩
  obtain ⟨hplaced, hblocks⟩ := hmore
  refine ⟨⟨mid', hentries.append hplaced⟩, List.forall_mem_cons.mpr ⟨hblock, ?_⟩⟩
  intro b hb
  exact (hblocks b hb).of_isSuffix hblock.isSuffix

end ModelText.Grammar
