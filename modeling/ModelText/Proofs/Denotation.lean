import Mathlib.Data.List.Forall2
import ModelText.Grammar.Parse
import ModelText.Proofs.Literals
import ModelText.Proofs.Tree

/-!
# What a derivation means

The elements that a derivation tree denotes (`Tree.Document.Means`): for each declaration its kind,
its path and the object of its members, of which the last with a name counts, and an index of the
sections if the document has a header or an import. The relation looks at spellings only, so it knows
nothing of positions and of the text that a tree derives.

Decoding computes it. A literal decodes exactly if it means something and its containers stay within
the limit (`Literal.decode_eq_ok`), and the same goes for declarations and documents.
-/

namespace ModelText.Grammar

namespace Tree

mutual

/-- The value that a tree of a value means. -/
def Value.Means : Value → Json → Prop
  | .string raw, j => ∃ s, StringMeans raw s ∧ j = .string s
  | .number raw, j => ∃ n, NumberMeans raw n ∧ j = .number n
  | .word raw, j => WordMeans raw j
  | .array items, j => ∃ js, ItemsMean items js ∧ j = .array js
  | .object members, j => ∃ ms, MembersMean members ms ∧ j = .object (Json.insertMembers ms [])

/-- The values that items mean, one by one. -/
def ItemsMean : List Value → List Json → Prop
  | [], js => js = []
  | v :: vs, js => ∃ j js', v.Means j ∧ ItemsMean vs js' ∧ js = j :: js'

/-- The names and values that members mean, in text order. -/
def MembersMean : List (List Char × Value) → List (String × Json) → Prop
  | [], ms => ms = []
  | (name, v) :: vs, ms => ∃ s j ms', StringMeans name s ∧ v.Means j ∧ MembersMean vs ms' ∧
      ms = (s, j) :: ms'

end

/-- The declaration that a tree of a declaration means. It has no position. -/
structure Entry.Means (e : Entry) (d : Declaration) : Prop where
  kind : d.kind = String.ofList e.kind
  path : d.path = String.ofList e.path
  body : ∃ ms, MembersMean e.body ms ∧ d.body.members = Json.insertMembers ms []
  source : d.source = none

/-- The blocks of a document that count as sections, each with the name in its header if it has one.
The block in front of the first header counts if it holds anything. -/
def Document.blocks (d : Document) : List (Option (List Char) × Block) :=
  (if d.leading.entries.isEmpty && d.leading.imports.isEmpty then [] else [(none, d.leading)]) ++
    d.sections.map fun s => (some s.1, s.2)

/-- The section that a block means. Without a header it can import only if it does. -/
def sectionOf (b : Option (List Char) × Block) : Section where
  parserName := (b.1.map String.ofList).getD "Pure"
  elements := b.2.entries.map fun e => String.ofList e.path
  kind :=
    if b.1.isNone && b.2.imports.isEmpty then .plain
    else .importAware (b.2.imports.map String.ofList)

/-- The index of the sections, which a document without headers and imports does not have. -/
def Document.index? (d : Document) : Option SectionIndex :=
  if d.sections.isEmpty && d.leading.imports.isEmpty then none
  else some { sections := d.blocks.map sectionOf }

/-- **Denotation.** The elements that a tree of a document means: its declarations in order and, after
them, the index of its sections. -/
def Document.Means (d : Document) (es : List Element) : Prop :=
  ∃ ds, List.Forall₂ Entry.Means d.entries ds ∧
    es = ds.map .declaration ++ (d.index?.map .sectionIndex).toList

/-- The tokens of a tree are spelled as tokens have to be. -/
def AllSpelled (ts : List Token) : Prop :=
  ∀ t ∈ ts, ∃ w, t.Spelled w

/-- What stands in one of the lists stands in their tokens, whichever of them it is. -/
theorem mem_moreTokens {c : Char} {t : Token} {ts : List Token} {tss : List (List Token)}
    (hts : ts ∈ tss) (ht : t ∈ ts) : t ∈ moreTokens c tss := by
  -- By induction on the lists in front of the one that the token is in.
  induction tss with
  | nil => cases hts
  | cons us tss ih =>
    rw [moreTokens]
    rcases List.mem_cons.mp hts with rfl | hts
    · exact List.mem_cons_of_mem _ (List.mem_append_left _ ht)
    · exact List.mem_cons_of_mem _ (List.mem_append_right _ (ih hts))

/-- The same of the whole list, where no comma comes before the first. -/
theorem mem_listTokens {c : Char} {t : Token} {ts : List Token} {tss : List (List Token)}
    (hts : ts ∈ tss) (ht : t ∈ ts) : t ∈ listTokens c tss := by
  cases tss with
  | nil => cases hts
  | cons us tss =>
    rw [listTokens]
    -- It is in the first list, or in one of those after a comma.
    rcases List.mem_cons.mp hts with rfl | hts
    · exact List.mem_append_left _ ht
    · exact List.mem_append_right _ (mem_moreTokens hts ht)

/-- If the tokens of a list are all spelled, so are those of each item. -/
theorem AllSpelled.items {vs : List Value} (h : AllSpelled (itemTokens vs)) :
    ∀ v ∈ vs, AllSpelled v.tokens := by
  intro v hv t ht
  rw [itemTokens_eq] at h
  exact h t (mem_listTokens (List.mem_map_of_mem hv) ht)

/-- If the tokens of an object are all spelled, each member has a string for its name and a value whose
tokens are spelled. -/
theorem AllSpelled.members {ms : List (List Char × Value)} (h : AllSpelled (memberTokens ms)) :
    ∀ m ∈ ms, IsString m.1 ∧ AllSpelled m.2.tokens := by
  intro m hm
  rw [memberTokens_eq] at h
  have hone : AllSpelled (oneMemberTokens m) := fun t ht =>
    h t (mem_listTokens (List.mem_map_of_mem hm) ht)
  -- Of a member, the first token is its name, and those behind the colon are its value.
  constructor
  · obtain ⟨w, hw⟩ := hone _ List.mem_cons_self
    cases hw with
    | string hs => exact hs
  · exact fun t ht => hone t (List.mem_cons_of_mem _ (List.mem_cons_of_mem _ ht))

end Tree

open Json.Reader (bind_eq_ok)

/-- An error is not an answer. Every branch that refuses is closed with this. -/
theorem errorAt_ne_ok {α : Type} (text rest : List Char) (cause : ParseCause) (a : α) :
    errorAt text rest cause ≠ .ok a := by
  simp [errorAt]

/-! ### Literals -/

/-- A scalar decodes to what the JSON reader makes of its characters; the place in the text matters for
the error alone. -/
theorem Scalar.decode_eq_ok {α : Type} {reader : List Char → Except Json.Error α}
    {text : List Char} {s : Scalar} {a : α} :
    s.decode reader text = .ok a ↔ reader s.raw = .ok a := by
  unfold Scalar.decode
  split
  · next h => rw [h]; simp
  · next h => simp [h, errorAt]

/-- The tree of a scalar is a string, a number or a word, and spells the scalar itself. -/
theorem Scalar.tree_cases (s : Scalar) :
    s.tree = .string s.raw ∨ s.tree = .number s.raw ∨ s.tree = .word s.raw := by
  unfold Scalar.tree
  split
  · next h => exact .inr (.inr (by rw [h]))
  · split
    · exact .inl rfl
    · split
      · exact .inr (.inr rfl)
      · exact .inr (.inl rfl)

/-- What the JSON reader makes of a scalar is what the scalar means, provided that it is spelled as the
token of its kind. -/
theorem Scalar.read_eq_ok {s : Scalar} (hs : Tree.AllSpelled s.tree.tokens) {j : Json} :
    Json.read s.raw = .ok j ↔ s.tree.Means j := by
  -- Each kind of scalar is spelled as a token of its own, which the JSON reader takes for the same.
  rcases s.tree_cases with h | h | h <;> rw [h] at hs ⊢ <;>
    obtain ⟨w, hw⟩ := hs _ List.mem_cons_self
  · cases hw with
    | string hw => exact read_string_eq_ok hw
  · cases hw with
    | number hw => exact read_number_eq_ok hw
  · cases hw with
    | word hw => exact read_word_eq_ok hw

variable {text : List Char} {limit : Nat}

/-- A container decodes exactly if it may stand on its level and its parts decode on the next one. -/
theorem container_eq_ok {α : Type} {start : List Char} {level depth : Nat}
    {parts : Except GrammarError α} {toJson : α → Json} {Mean : α → Prop} {j : Json}
    (h : level ≤ limit → ∀ a, parts = .ok a ↔ Mean a ∧ level + 1 + depth ≤ limit + 1) :
    (if limit < level then errorAt text start (.nestedTooDeep limit)
      else do
        let a ← parts
        return toJson a) = .ok j ↔
      (∃ a, Mean a ∧ j = toJson a) ∧ level + (depth + 1) ≤ limit + 1 := by
  split
  · -- One container more than the limit: refused, and too deep by the right-hand side as well.
    next hlimit =>
    constructor
    · intro herror
      exact absurd herror (errorAt_ne_ok _ _ _ _)
    · rintro ⟨-, hdepth⟩
      omega
  · next hlimit =>
    have hparts := h (Nat.le_of_not_lt hlimit)
    rw [bind_eq_ok]
    constructor
    · rintro ⟨a, ha, e⟩
      cases e
      obtain ⟨hmeans, hdepth⟩ := (hparts a).mp ha
      exact ⟨⟨a, hmeans, rfl⟩, by omega⟩
    · rintro ⟨⟨a, hmeans, rfl⟩, hdepth⟩
      exact ⟨a, (hparts a).mpr ⟨hmeans, by omega⟩, rfl⟩

mutual

/-- **Values.** A literal decodes exactly if its tree means something and no container in it stands
beyond the limit. -/
theorem Literal.decode_eq_ok : ∀ (l : Literal) (level : Nat) (j : Json),
    Tree.AllSpelled l.tree.tokens → level ≤ limit + 1 →
    (l.decode text limit level = .ok j ↔ l.tree.Means j ∧ level + l.tree.depth ≤ limit + 1)
  | .scalar s, level, j, hs, hlevel => by
    -- A scalar is no container, so it may stand one level beyond the last one for containers.
    have hdepth : level + s.tree.depth ≤ limit + 1 := by
      rcases s.tree_cases with h | h | h <;> rw [h] <;> exact hlevel
    rw [Literal.tree] at hs ⊢
    rw [Literal.decode, Scalar.decode_eq_ok, Scalar.read_eq_ok hs]
    exact ⟨fun h => ⟨h, hdepth⟩, fun h => h.1⟩
  | .array start items, level, j, hs, _ => by
    rw [Literal.tree] at hs ⊢
    have hitems := Tree.AllSpelled.items fun t ht => hs t (List.mem_cons_of_mem _ ht)
    rw [Literal.decode, Tree.Value.depth, Tree.Value.Means]
    refine container_eq_ok fun hlimit js => ?_
    exact decodeItems_eq_ok items (level + 1) js hitems (Nat.succ_le_succ hlimit)
  | .object start members, level, j, hs, _ => by
    rw [Literal.tree] at hs ⊢
    have hmembers := Tree.AllSpelled.members fun t ht => hs t (List.mem_cons_of_mem _ ht)
    rw [Literal.decode, Tree.Value.depth, Tree.Value.Means]
    refine container_eq_ok fun hlimit ms => ?_
    exact decodeMembers_eq_ok members (level + 1) ms hmembers (Nat.succ_le_succ hlimit)

/-- The items decode if each of them means something and none goes too deep. -/
theorem decodeItems_eq_ok : ∀ (ls : List Literal) (level : Nat) (js : List Json),
    (∀ v ∈ itemTrees ls, Tree.AllSpelled v.tokens) → level ≤ limit + 1 →
    (decodeItems text limit level ls = .ok js ↔
      Tree.ItemsMean (itemTrees ls) js ∧ level + Tree.itemsDepth (itemTrees ls) ≤ limit + 1)
  | [], level, js, _, hlevel => by
    rw [decodeItems, itemTrees, Tree.ItemsMean, Tree.itemsDepth, Except.ok.injEq, eq_comm]
    exact ⟨fun h => ⟨h, hlevel⟩, fun h => h.1⟩
  | l :: ls, level, js, hs, hlevel => by
    rw [itemTrees] at hs ⊢
    -- The items stand next to each other, so the deepest of them decides.
    obtain ⟨hl, hls⟩ := List.forall_mem_cons.mp hs
    have hfirst := fun j => Literal.decode_eq_ok l level j hl hlevel
    have hmore := fun js => decodeItems_eq_ok ls level js hls hlevel
    rw [decodeItems, Tree.ItemsMean, Tree.itemsDepth, bind_eq_ok]
    constructor
    · rintro ⟨j, hj, h⟩
      obtain ⟨js', hjs, e⟩ := bind_eq_ok.mp h
      cases e
      obtain ⟨hj, hdepth⟩ := (hfirst j).mp hj
      obtain ⟨hjs, hdepths⟩ := (hmore js').mp hjs
      exact ⟨⟨j, js', hj, hjs, rfl⟩, by omega⟩
    · rintro ⟨⟨j, js', hj, hjs, rfl⟩, hdepth⟩
      refine ⟨j, (hfirst j).mpr ⟨hj, by omega⟩, bind_eq_ok.mpr ⟨js', ?_, rfl⟩⟩
      exact (hmore js').mpr ⟨hjs, by omega⟩

/-- The members decode in the same way, and each name means a string. -/
theorem decodeMembers_eq_ok : ∀ (ls : List (Scalar × Literal)) (level : Nat)
    (ms : List (String × Json)),
    (∀ m ∈ memberTrees ls, IsString m.1 ∧ Tree.AllSpelled m.2.tokens) → level ≤ limit + 1 →
    (decodeMembers text limit level ls = .ok ms ↔
      Tree.MembersMean (memberTrees ls) ms ∧
        level + Tree.membersDepth (memberTrees ls) ≤ limit + 1)
  | [], level, ms, _, hlevel => by
    rw [decodeMembers, memberTrees, Tree.MembersMean, Tree.membersDepth, Except.ok.injEq, eq_comm]
    exact ⟨fun h => ⟨h, hlevel⟩, fun h => h.1⟩
  | (name, l) :: ls, level, ms, hs, hlevel => by
    rw [memberTrees] at hs ⊢
    obtain ⟨⟨hname, hl⟩, hls⟩ := List.forall_mem_cons.mp hs
    have hfirst := fun j => Literal.decode_eq_ok l level j hl hlevel
    have hmore := fun ms => decodeMembers_eq_ok ls level ms hls hlevel
    rw [decodeMembers, Tree.MembersMean, Tree.membersDepth, bind_eq_ok]
    -- The name is a string whose depth does not count.
    simp only [Scalar.decode_eq_ok, readString_eq_ok hname]
    constructor
    · rintro ⟨s, hs, h⟩
      obtain ⟨j, hj, h⟩ := bind_eq_ok.mp h
      obtain ⟨ms', hms, e⟩ := bind_eq_ok.mp h
      cases e
      obtain ⟨hj, hdepth⟩ := (hfirst j).mp hj
      obtain ⟨hms, hdepths⟩ := (hmore ms').mp hms
      exact ⟨⟨s, j, ms', hs, hj, hms, rfl⟩, by omega⟩
    · rintro ⟨⟨s, j, ms', hs, hj, hms, rfl⟩, hdepth⟩
      refine ⟨s, hs, bind_eq_ok.mpr ⟨j, (hfirst j).mpr ⟨hj, by omega⟩, ?_⟩⟩
      exact bind_eq_ok.mpr ⟨ms', (hmore ms').mpr ⟨hms, by omega⟩, rfl⟩

end

/-! ### Declarations -/

/-- A body is the object into which its members go one after another. The first container stands at level
one, so the members are at level two. -/
theorem decodeBody_eq_ok {body : List (Scalar × Literal)} {o : Json.Object} :
    decodeBody text limit body = .ok o ↔
      ∃ ms, decodeMembers text limit 2 body = .ok ms ∧ o.members = Json.insertMembers ms [] := by
  unfold decodeBody
  split
  · next h => simp [h]
  · next ms h =>
    constructor
    · rintro e
      cases e
      exact ⟨ms, h, rfl⟩
    · rintro ⟨ms', h', hmembers⟩
      obtain rfl := Except.ok.inj (h.symm.trans h')
      -- An object is its members, whatever shows that they are in order.
      exact congrArg Except.ok (Json.Object.ext hmembers.symm)

/-- **Declarations.** A declaration decodes exactly if it means something and its body does not nest
too deep. -/
theorem Entry.declaration_eq_ok {e : Entry} (hs : Tree.AllSpelled e.tree.tokens)
    {d : Declaration} :
    e.declaration text false = .ok d ↔ e.tree.Means d ∧ e.tree.depth ≤ maxDepth := by
  have hmembers : ∀ m ∈ memberTrees e.body, IsString m.1 ∧ Tree.AllSpelled m.2.tokens := by
    rw [memberTrees_eq]
    refine Tree.AllSpelled.members fun t ht => hs t ?_
    exact List.mem_cons_of_mem _ (List.mem_cons_of_mem _ (List.mem_cons_of_mem _ ht))
  -- The body itself is on the first level, so its members are on the second.
  have hmore : ∀ ms, decodeMembers text maxDepth 2 e.body = .ok ms ↔ _ := fun ms =>
    decodeMembers_eq_ok e.body 2 ms hmembers (by decide)
  rw [memberTrees_eq] at hmore
  have hdepth : e.tree.depth ≤ maxDepth ↔
      2 + Tree.membersDepth (e.body.map memberTree) ≤ maxDepth + 1 := by
    show Tree.membersDepth (e.body.map memberTree) + 1 ≤ maxDepth ↔ _
    omega
  rw [Entry.declaration, bind_eq_ok, hdepth]
  constructor
  · rintro ⟨o, ho, h⟩
    cases h
    obtain ⟨ms, hms, hmembers⟩ := decodeBody_eq_ok.mp ho
    obtain ⟨hmeans, hlevel⟩ := (hmore ms).mp hms
    exact ⟨⟨rfl, rfl, ⟨ms, hmeans, hmembers⟩, rfl⟩, hlevel⟩
  · rintro ⟨⟨hkind, hpath, ⟨ms, hmeans, hmembers⟩, hsource⟩, hlevel⟩
    refine ⟨d.body, decodeBody_eq_ok.mpr ⟨ms, (hmore ms).mpr ⟨hmeans, hlevel⟩, hmembers⟩, ?_⟩
    obtain ⟨kind, path, body, source⟩ := d
    cases hkind
    cases hpath
    cases hsource
    rfl

/-- A function that can fail runs over a list if it answers for each of its elements. -/
theorem mapM_eq_ok {ε α β : Type} {f : α → Except ε β} {as : List α} {bs : List β} :
    as.mapM f = .ok bs ↔ List.Forall₂ (fun a b => f a = .ok b) as bs := by
  -- By induction on the list: the first answer, and then those for the rest.
  induction as generalizing bs with
  | nil =>
    rw [List.mapM_nil, List.forall₂_nil_left_iff]
    exact ⟨fun h => (Except.ok.inj h).symm, fun h => congrArg Except.ok h.symm⟩
  | cons a as ih =>
    rw [List.mapM_cons, List.forall₂_cons_left_iff, bind_eq_ok]
    simp only [bind_eq_ok, ih]
    constructor
    · rintro ⟨b, hb, bs', hbs, e⟩
      cases e
      exact ⟨b, bs', hb, hbs, rfl⟩
    · rintro ⟨b, bs', hb, hbs, rfl⟩
      exact ⟨b, hb, bs', hbs, rfl⟩

/-- Every element on the right belongs to one on the left. -/
theorem exists_of_forall₂ {α β : Type} {R : α → β → Prop} {as : List α} {bs : List β}
    (h : List.Forall₂ R as bs) {b : β} (hb : b ∈ bs) : ∃ a ∈ as, R a b := by
  -- By induction on the pairs.
  induction h with
  | nil => cases hb
  | cons hab _ ih =>
    rcases List.mem_cons.mp hb with rfl | hb
    · exact ⟨_, List.mem_cons_self, hab⟩
    · obtain ⟨a, ha, hab⟩ := ih hb
      exact ⟨a, List.mem_cons_of_mem _ ha, hab⟩

/-- If two functions agree pair by pair, the two lists have the same image. -/
theorem map_eq_map_of_forall₂ {α β γ : Type} {f : α → γ} {g : β → γ} {as : List α} {bs : List β}
    (h : List.Forall₂ (fun a b => f a = g b) as bs) : as.map f = bs.map g := by
  -- By induction on the pairs.
  induction h with
  | nil => rfl
  | cons hab _ ih => rw [List.map_cons, List.map_cons, hab, ih]

/-- The declarations of blocks, put together, are those of all their entries. -/
theorem flatten_mapM {ε α β γ : Type} (f : β → Except ε γ) (g : α → List β) (as : List α) :
    (do let css ← as.mapM fun a => (g a).mapM f; return css.flatten) = (as.flatMap g).mapM f := by
  induction as with
  | nil => rfl
  | cons a as ih =>
    rw [List.flatMap_cons, List.mapM_append, ← ih]
    simp

/-! ### Documents -/

/-- The declarations of a document as it is written. -/
def Document.entries (d : Document) : List Entry :=
  (d.leading :: d.sections).flatMap Block.entries

/-- The entries of the tree of a document are the trees of its entries, in the order of the text. -/
theorem Document.tree_entries (d : Document) : d.tree.entries = d.entries.map Entry.tree := by
  simp [Document.entries, Document.tree, Tree.Document.entries, Block.tree, Block.sectionTree,
    List.flatMap_map, List.map_flatMap]

/-- If the tokens of a document are all spelled, so are those of each declaration in it. -/
theorem AllSpelled.entries {d : Tree.Document} (h : Tree.AllSpelled d.tokens) :
    ∀ e ∈ d.entries, Tree.AllSpelled e.tokens := by
  intro e he t ht
  refine h t ?_
  have hblock : ∀ b : Tree.Block, e ∈ b.entries → t ∈ b.tokens := fun b hb =>
    List.mem_append_right _ (List.mem_flatMap.mpr ⟨e, hb, ht⟩)
  -- An entry is one of the leading block or of a section, after whose header its tokens come.
  rcases List.mem_append.mp he with he | he
  · exact List.mem_append_left _ (hblock _ he)
  · obtain ⟨s, hs, he⟩ := List.mem_flatMap.mp he
    refine List.mem_append_right _ (List.mem_flatMap.mpr ⟨s, hs, ?_⟩)
    exact List.mem_cons_of_mem _ (hblock _ he)

/-- The tokens that a text consists of are all spelled, since each was met in it. -/
theorem Lexes.allSpelled {cs : List Char} {ts : List Token} (h : Lexes cs ts) :
    Tree.AllSpelled ts := by
  -- By induction on the tokens: each is at its place in the text, and so spelled.
  induction h with
  | done => exact fun t ht => absurd ht List.not_mem_nil
  | token _ hat _ ih =>
    obtain ⟨w, hw, -, -⟩ := hat
    exact List.forall_mem_cons.mpr ⟨⟨w, hw⟩, ih⟩

/-- The section that is published for a block can be told from its header and its tree; where it stands in
the text does not matter. -/
theorem Block.toSection_eq (b : Block) :
    b.toSection text false = Tree.sectionOf (b.header, b.tree) := by
  simp [Block.toSection, Tree.sectionOf, Block.tree, defaultParserName, Entry.tree]

/-- The blocks of a document after the first are those that have a header. -/
structure Document.Headed (d : Document) : Prop where
  leading : d.leading.header = none
  sections : ∀ b ∈ d.sections, b.header.isSome

/-- The blocks that a document publishes as sections are those of its tree: the leading one if anything
stands in it, and then every one that has a header. -/
theorem Document.Headed.sectionBlocks {d : Document} (h : d.Headed) :
    d.sectionBlocks.map (fun b => (b.header, b.tree)) = d.tree.blocks := by
  have hsections : d.sections.map (fun b => (b.header, b.tree)) =
      d.tree.sections.map fun s => (some s.1, s.2) := by
    rw [Document.tree, List.map_map]
    refine List.map_congr_left fun b hb => ?_
    obtain ⟨n, hn⟩ := Option.isSome_iff_exists.mp (h.sections b hb)
    simp [Block.sectionTree, hn]
  -- The leading block is left out on either side if it holds nothing.
  have hempty : d.leading.isSection =
      !(d.tree.leading.entries.isEmpty && d.tree.leading.imports.isEmpty) := by
    simp [Block.isSection, Document.tree, Block.tree]
  unfold Document.sectionBlocks Tree.Document.blocks
  rw [hempty]
  cases d.tree.leading.entries.isEmpty && d.tree.leading.imports.isEmpty with
  | true => simpa using hsections
  | false =>
    simp only [Bool.not_false, if_true, Bool.false_eq_true, if_false, List.map_cons, hsections,
      h.leading]
    rfl

/-- So the index too can be told from the tree. It is there if any header or import is. -/
theorem Document.Headed.index? {d : Document} (h : d.Headed) (text : List Char) :
    (if d.hasIndex then
      [Element.sectionIndex { sections := d.sectionBlocks.map (Block.toSection text false) }]
    else []) = (d.tree.index?.map Element.sectionIndex).toList := by
  have hsections : d.sectionBlocks.map (Block.toSection text false) =
      d.tree.blocks.map Tree.sectionOf := by
    rw [← h.sectionBlocks, List.map_map]
    exact List.map_congr_left fun b _ => Block.toSection_eq b
  have hindex : d.hasIndex =
      !(d.tree.sections.isEmpty && d.tree.leading.imports.isEmpty) := by
    simp [Document.hasIndex, Document.tree, Block.tree]
  -- Both the condition and the sections are those of the tree now, and only the test of the condition is
  -- left.
  rw [hindex, hsections, Tree.Document.index?]
  cases d.tree.sections.isEmpty && d.tree.leading.imports.isEmpty <;> rfl

/-- The declarations of a text are read if each entry means one and none goes deeper than the limit. -/
theorem entries_eq_ok {entries : List Entry}
    (hs : ∀ e ∈ entries, Tree.AllSpelled e.tree.tokens) {ds : List Declaration} :
    entries.mapM (Entry.declaration text false) = .ok ds ↔
      List.Forall₂ Tree.Entry.Means (entries.map Entry.tree) ds ∧
        ∀ e ∈ entries, e.tree.depth ≤ maxDepth := by
  rw [mapM_eq_ok, List.forall₂_map_left_iff]
  -- By induction on the entries. The depth of each is a condition beside what it means.
  induction entries generalizing ds with
  | nil => simp
  | cons e es ih =>
    obtain ⟨he, hes⟩ := List.forall_mem_cons.mp hs
    rw [List.forall₂_cons_left_iff, List.forall₂_cons_left_iff]
    simp only [List.forall_mem_cons, Entry.declaration_eq_ok he, ih hes]
    constructor
    · rintro ⟨d, ds, ⟨hd, hdepth⟩, ⟨hds, hdepths⟩, rfl⟩
      exact ⟨⟨d, ds, hd, hds, rfl⟩, hdepth, hdepths⟩
    · rintro ⟨⟨d, ds, hd, hds, rfl⟩, hdepth, hdepths⟩
      exact ⟨d, ds, ⟨hd, hdepth⟩, ⟨hds, hdepths⟩, rfl⟩

/-- **Documents.** A document decodes exactly to what it means, if no body nests too deep. -/
theorem Document.elements_eq_ok {d : Document} (h : d.Headed)
    (hs : Tree.AllSpelled d.tree.tokens) {es : List Element} :
    d.elements text false = .ok es ↔
      d.tree.Means es ∧ ∀ e ∈ d.tree.entries, e.depth ≤ maxDepth := by
  have hentries : ∀ ds, d.entries.mapM (Entry.declaration text false) = .ok ds ↔
      List.Forall₂ Tree.Entry.Means d.tree.entries ds ∧
        ∀ e ∈ d.tree.entries, e.depth ≤ maxDepth := by
    intro ds
    have hspelled := AllSpelled.entries hs
    rw [Document.tree_entries, List.forall_mem_map] at hspelled ⊢
    exact entries_eq_ok hspelled
  -- The declarations of all blocks together, and the index after them.
  have hflat : d.elements text false = (do
      let ds ← d.entries.mapM (Entry.declaration text false)
      return ds.map .declaration ++ (d.tree.index?.map .sectionIndex).toList) := by
    rw [Document.entries, ← flatten_mapM, ← h.index? text, Document.elements]
    simp only [bind_assoc, pure_bind]
    rfl
  rw [hflat, bind_eq_ok]
  constructor
  · rintro ⟨ds, hds, e⟩
    cases e
    obtain ⟨hmeans, hdepth⟩ := (hentries ds).mp hds
    exact ⟨⟨ds, hmeans, rfl⟩, hdepth⟩
  · rintro ⟨⟨ds, hmeans, rfl⟩, hdepth⟩
    exact ⟨ds, (hentries ds).mpr ⟨hmeans, hdepth⟩, rfl⟩

end ModelText.Grammar
