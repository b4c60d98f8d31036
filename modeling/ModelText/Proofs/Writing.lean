import Mathlib.Data.List.Perm.Basic
import ModelText.Grammar.Compose
import ModelText.Proofs.Paths
import ModelText.Proofs.Printing
import ModelText.Proofs.Search

/-!
# What is written

Elements can be written exactly if there is at most one index among them, and each declaration and
each section of the index passes its checks (`compose_eq_ok`). The text is made of chunks, which are
known in advance: the declarations that no section claims, and then the head and the declarations of
one section after another (`chunks`). Dealing out declarations to sections loses none of them and
makes no new ones (`claimAll_perm`).
-/

namespace ModelText

open Grammar (maxDepth)

/-- What is checked of a declaration before it is written. -/
structure Declaration.Writable (d : Declaration) : Prop where
  kind : Path.isIdentifier d.kind
  path : Path.isValid d.path
  depth : d.body.toJson.depth ≤ maxDepth

/-- What is checked of a section before its head is written. A section that cannot import has no head
to check. -/
def Section.Writable (s : Section) : Prop :=
  ∀ imports, s.kind = .importAware imports →
    Path.isIdentifier s.parserName ∧ ∀ path ∈ imports, Path.isValid path

namespace Grammar

/-! ### Texts of parts -/

/-- The text of a declaration that can be written. -/
def declarationText (style : RenderStyle) (d : Declaration) : List Char :=
  d.kind.toList ++ ' ' :: d.path.toList ++ '\n' :: d.body.toJson.render style.layout

/-- The line of an import that can be written. -/
def importText (path : String) : List Char :=
  "import ".toList ++ path.toList ++ "::*;".toList

/-- The head of a section that can be written. -/
def headText (s : Section) : Option (List Char) :=
  match s.kind with
  | .plain => none
  | .importAware imports =>
    some ("###".toList ++ s.parserName.toList ++ imports.flatMap fun path => '\n' :: importText path)

/-- A refusal is not an answer. -/
theorem refuse_ne_ok {α : Type} (cause : ComposeCause) (a : α) : refuse cause ≠ .ok a := by
  simp [refuse]

/-- A declaration is rendered if it can be written, and then as its text. -/
theorem renderDeclaration_eq_ok {style : RenderStyle} {d : Declaration} {w : List Char} :
    renderDeclaration style d = .ok w ↔ d.Writable ∧ declarationText style d = w := by
  -- The checks come one after another, and each that fails refuses the declaration.
  unfold renderDeclaration
  by_cases hkind : Path.isIdentifier d.kind
  · by_cases hpath : Path.isValid d.path
    · by_cases hdepth : d.body.toJson.depth ≤ maxDepth
      · have hexceeds := (Json.Object.exceeds_eq_false_iff (by decide)).mpr hdepth
        simp only [hkind, hpath, hexceeds, Bool.not_true, Bool.false_eq_true, if_false]
        exact ⟨fun h => ⟨⟨hkind, hpath, hdepth⟩, Except.ok.inj h⟩, fun h => congrArg Except.ok h.2⟩
      · have hexceeds : d.body.exceeds maxDepth = true := by
          rw [← Bool.not_eq_false, Json.Object.exceeds_eq_false_iff (by decide)]
          exact hdepth
        simp only [hkind, hpath, hexceeds, Bool.not_true, Bool.false_eq_true, if_false, if_true]
        exact ⟨fun h => absurd h (refuse_ne_ok _ _), fun h => absurd h.1.depth hdepth⟩
    · simp only [hkind, hpath, Bool.not_true, Bool.false_eq_true, if_false, Bool.not_false, if_true]
      exact ⟨fun h => absurd h (refuse_ne_ok _ _), fun h => absurd h.1.path hpath⟩
  · simp only [hkind, Bool.not_false, if_true]
    exact ⟨fun h => absurd h (refuse_ne_ok _ _), fun h => absurd h.1.kind hkind⟩

/-- An import is rendered if its path is valid. -/
theorem renderImport_eq_ok {path : String} {w : List Char} :
    renderImport path = .ok w ↔ Path.isValid path ∧ importText path = w := by
  unfold renderImport
  by_cases hpath : Path.isValid path
  · rw [if_pos hpath]
    exact ⟨fun h => ⟨hpath, Except.ok.inj h⟩, fun h => congrArg Except.ok h.2⟩
  · rw [if_neg hpath]
    exact ⟨fun h => absurd h (refuse_ne_ok _ _), fun h => absurd h.1 hpath⟩

open Json.Reader (bind_eq_ok)

/-- Parts that are checked and written one by one. -/
theorem mapM_eq_ok_map {ε α β : Type} {f : α → Except ε β} {P : α → Prop} {g : α → β}
    (hf : ∀ {a b}, f a = .ok b ↔ P a ∧ g a = b) {as : List α} {bs : List β} :
    as.mapM f = .ok bs ↔ (∀ a ∈ as, P a) ∧ as.map g = bs := by
  rw [mapM_eq_ok]
  induction as generalizing bs with
  | nil => simp [eq_comm]
  | cons a as ih =>
    rw [List.forall₂_cons_left_iff, List.forall_mem_cons, List.map_cons]
    constructor
    · rintro ⟨b, bs', hb, hbs, rfl⟩
      obtain ⟨ha, rfl⟩ := hf.mp hb
      obtain ⟨hall, rfl⟩ := ih.mp hbs
      exact ⟨⟨ha, hall⟩, rfl⟩
    · rintro ⟨⟨ha, hall⟩, rfl⟩
      exact ⟨g a, as.map g, hf.mpr ⟨ha, rfl⟩, ih.mpr ⟨hall, rfl⟩, rfl⟩

/-- A head is rendered if its section can be written. For a plain section that is no condition, as it has
no head. -/
theorem renderHead_eq_ok {s : Section} {head : Option (List Char)} :
    renderHead s = .ok head ↔ s.Writable ∧ headText s = head := by
  unfold renderHead Section.Writable headText
  cases hkind : s.kind with
  | plain =>
    have hwritable : ∀ imports : List String, SectionKind.plain = .importAware imports →
        Path.isIdentifier s.parserName ∧ ∀ path ∈ imports, Path.isValid path := by
      rintro _ ⟨⟩
    exact ⟨fun h => ⟨hwritable, Except.ok.inj h⟩, fun h => congrArg Except.ok h.2⟩
  | importAware imports =>
    dsimp only
    by_cases hname : Path.isIdentifier s.parserName
    · simp only [if_pos hname, bind_eq_ok, mapM_eq_ok_map renderImport_eq_ok]
      constructor
      · rintro ⟨_, ⟨himports, rfl⟩, h⟩
        -- The lines that have been written for the imports are those of the head.
        cases h
        refine ⟨?_, by rw [List.flatMap_map]⟩
        rintro _ ⟨⟩
        exact ⟨hname, himports⟩
      · rintro ⟨hwritable, rfl⟩
        refine ⟨_, ⟨(hwritable imports rfl).2, rfl⟩, ?_⟩
        rw [List.flatMap_map]
        rfl
    · rw [if_neg hname]
      exact ⟨fun h => absurd h (refuse_ne_ok _ _), fun h => absurd (h.1 imports rfl).1 hname⟩

/-! ### Dealing out declarations -/

/-- A path takes the first declaration that has it. -/
theorem takeNamed_eq_some {path : String} {pool rest : List Declaration} {d : Declaration} :
    takeNamed path pool = some (d, rest) ↔
      ∃ before after, pool = before ++ d :: after ∧ rest = before ++ after ∧ d.path = path ∧
        ∀ e ∈ before, e.path ≠ path := by
  -- By induction on the declarations in front of the one that is taken.
  induction pool generalizing rest with
  | nil => simp [takeNamed]
  | cons e pool ih =>
    rw [takeNamed]
    split
    · next he =>
      refine ⟨fun h => ?_, ?_⟩
      · cases h
        exact ⟨[], pool, rfl, rfl, he, by simp⟩
      · rintro ⟨_ | ⟨b, before⟩, after, hpool, rfl, -, hbefore⟩
        · cases hpool
          rfl
        · cases hpool
          exact absurd he (hbefore e List.mem_cons_self)
    · next he =>
      simp only [Option.map_eq_some_iff, Prod.exists, Prod.mk.injEq]
      refine ⟨?_, ?_⟩
      · rintro ⟨_, more, h, rfl, rfl⟩
        obtain ⟨before, after, rfl, rfl, hd, hbefore⟩ := ih.mp h
        exact ⟨e :: before, after, rfl, rfl, hd, List.forall_mem_cons.mpr ⟨he, hbefore⟩⟩
      · rintro ⟨_ | ⟨b, before⟩, after, hpool, rfl, hd, hbefore⟩
        · cases hpool
          exact absurd hd he
        · cases hpool
          refine ⟨d, before ++ after, ih.mpr ⟨before, after, rfl, rfl, hd, ?_⟩, rfl, rfl⟩
          exact (List.forall_mem_cons.mp hbefore).2

/-- What is dealt out and what is left over are the pool together. -/
theorem claim_perm (paths : List String) (pool : List Declaration) :
    ((claim paths pool).1 ++ (claim paths pool).2).Perm pool := by
  -- By induction on the paths, each of which takes at most one declaration out of the pool.
  induction paths generalizing pool with
  | nil => exact .refl pool
  | cons path paths ih =>
    rw [claim]
    split
    · next d rest h =>
      have hmore : (d :: ((claim paths rest).1 ++ (claim paths rest).2)).Perm (d :: rest) :=
        (ih rest).cons d
      obtain ⟨before, after, rfl, rfl, -, -⟩ := takeNamed_eq_some.mp h
      exact hmore.trans List.perm_middle.symm
    · exact ih pool

/-- **Dealing out.** What the sections take and what remains is all that there was. -/
theorem claimAll_perm (sections : List Section) (pool : List Declaration) :
    ((claimAll sections pool).2 ++ (claimAll sections pool).1.flatMap (·.2)).Perm pool := by
  induction sections generalizing pool with
  | nil => simp [claimAll]
  | cons s sections ih =>
    rw [claimAll]
    dsimp only
    rw [List.flatMap_cons]
    generalize hrest : (claim s.elements pool).2 = rest
    have hclaim := claim_perm s.elements pool
    rw [hrest] at hclaim
    -- What later sections take comes out of what this one has left.
    have hswap := List.perm_append_comm_assoc (claimAll sections rest).2 (claim s.elements pool).1
      ((claimAll sections rest).1.flatMap (·.2))
    have hmore := (ih rest).append_left (claim s.elements pool).1
    exact hswap.trans (hmore.trans hclaim)

/-- Every section has its group, in the order of the sections. -/
theorem claimAll_sections (sections : List Section) (pool : List Declaration) :
    (claimAll sections pool).1.map (·.1) = sections := by
  -- By induction on the sections.
  induction sections generalizing pool with
  | nil => rfl
  | cons s sections ih =>
    rw [claimAll]
    dsimp only
    rw [List.map_cons, ih]

/-- What holds of all declarations and of all sections holds of those that have been dealt out. -/
theorem forall_claimAll {P : Declaration → Prop} {Q : Section → Prop} {sections : List Section}
    {pool leading : List Declaration} {groups : List (Section × List Declaration)}
    (h : claimAll sections pool = (groups, leading)) :
    ((∀ d ∈ pool, P d) ∧ ∀ s ∈ sections, Q s) ↔
      (∀ d ∈ leading, P d) ∧ ∀ g ∈ groups, Q g.1 ∧ ∀ d ∈ g.2, P d := by
  -- Nothing is lost and nothing added, neither declarations nor sections.
  have hperm := claimAll_perm sections pool
  have hsections := claimAll_sections sections pool
  rw [h] at hperm hsections
  dsimp only at hperm hsections
  have hdeclarations : (∀ d ∈ pool, P d) ↔
      (∀ d ∈ leading, P d) ∧ ∀ g ∈ groups, ∀ d ∈ g.2, P d := by
    simp only [← hperm.mem_iff, List.forall_mem_append, List.forall_mem_flatMap]
  have hheads : (∀ s ∈ sections, Q s) ↔ ∀ g ∈ groups, Q g.1 := by
    rw [← hsections, List.forall_mem_map]
  rw [hdeclarations, hheads]
  refine ⟨fun hall => ⟨hall.1.1, fun g hg => ⟨hall.2 g hg, hall.1.2 g hg⟩⟩, fun hall => ?_⟩
  exact ⟨⟨hall.1, fun g hg => (hall.2 g hg).2⟩, fun g hg => (hall.2 g hg).1⟩

/-! ### Chunks -/

/-- The chunks of a section and its declarations. -/
def groupChunks (style : RenderStyle) (group : Section × List Declaration) : List (List Char) :=
  (headText group.1).toList ++ group.2.map (declarationText style)

/-- The chunks of leading declarations and of sections after them. -/
def chunks (style : RenderStyle) (leading : List Declaration)
    (groups : List (Section × List Declaration)) : List (List Char) :=
  leading.map (declarationText style) ++ groups.flatMap (groupChunks style)

/-- The sections of an index. -/
def sectionsOf (index : Option SectionIndex) : List Section :=
  (index.map (·.sections)).getD []

/-- A group is rendered if its section and its declarations can be written. -/
theorem renderGroup_eq_ok {style : RenderStyle} {group : Section × List Declaration}
    {ws : List (List Char)} :
    renderGroup style group = .ok ws ↔
      (group.1.Writable ∧ ∀ d ∈ group.2, d.Writable) ∧ groupChunks style group = ws := by
  unfold renderGroup groupChunks
  -- One lemma for the head, and one that runs over the declarations.
  simp only [bind_eq_ok, renderHead_eq_ok, mapM_eq_ok_map renderDeclaration_eq_ok]
  constructor
  · rintro ⟨_, ⟨hhead, rfl⟩, _, ⟨hmembers, rfl⟩, h⟩
    exact ⟨⟨hhead, hmembers⟩, Except.ok.inj h⟩
  · rintro ⟨⟨hhead, hmembers⟩, rfl⟩
    exact ⟨_, ⟨hhead, rfl⟩, _, ⟨hmembers, rfl⟩, rfl⟩

/-- The chunks are rendered if all declarations and sections can be written. Without an index all
declarations are left over, and they are the chunks. -/
theorem renderChunks_eq_ok {style : RenderStyle} {ds : List Declaration}
    {index : Option SectionIndex} {ws : List (List Char)} :
    renderChunks style ds index = .ok ws ↔
      ((∀ d ∈ ds, d.Writable) ∧ ∀ s ∈ sectionsOf index, s.Writable) ∧
        chunks style (claimAll (sectionsOf index) ds).2 (claimAll (sectionsOf index) ds).1 = ws := by
  cases index with
  | none =>
    -- Without an index there are no sections, and all declarations come first.
    rw [renderChunks, mapM_eq_ok_map renderDeclaration_eq_ok]
    simp [sectionsOf, chunks, claimAll]
  | some index =>
    rw [renderChunks]
    dsimp only [sectionsOf, Option.map_some, Option.getD_some]
    cases hclaim : claimAll index.sections ds with
    | mk groups leading =>
      -- Parts are checked where they have been dealt out to.
      rw [forall_claimAll hclaim]
      dsimp only
      simp only [bind_eq_ok, mapM_eq_ok_map renderDeclaration_eq_ok,
        mapM_eq_ok_map renderGroup_eq_ok]
      constructor
      · rintro ⟨_, ⟨hleading, rfl⟩, _, ⟨hgroups, rfl⟩, h⟩
        cases h
        exact ⟨⟨hleading, hgroups⟩, by rw [chunks, List.flatMap_def]⟩
      · rintro ⟨⟨hleading, hgroups⟩, rfl⟩
        refine ⟨_, ⟨hleading, rfl⟩, _, ⟨hgroups, rfl⟩, ?_⟩
        rw [chunks, List.flatMap_def]
        rfl

/-- **Composing.** Elements can be written exactly if there is at most one index and all parts pass
their checks. The text is that of the chunks. -/
theorem compose_eq_ok {style : RenderStyle} {es : List Element} {text : String} :
    compose style es = .ok text ↔ ∃ index, onlyIndex es = .ok index ∧
      ((∀ d ∈ Element.declarations es, d.Writable) ∧ ∀ s ∈ sectionsOf index, s.Writable) ∧
      text.toList = joinChunks (chunks style (claimAll (sectionsOf index) (Element.declarations es)).2
        (claimAll (sectionsOf index) (Element.declarations es)).1) := by
  unfold compose
  simp only [bind_eq_ok, renderChunks_eq_ok]
  -- The index is the same on both sides, so the chunks are.
  refine exists_congr fun index => and_congr_right fun _ => ?_
  constructor
  · rintro ⟨_, ⟨hwritable, rfl⟩, h⟩
    cases h
    exact ⟨hwritable, String.toList_ofList⟩
  · rintro ⟨hwritable, htext⟩
    refine ⟨_, ⟨hwritable, rfl⟩, ?_⟩
    rw [← htext, String.ofList_toList]
    rfl

end Grammar

end ModelText
