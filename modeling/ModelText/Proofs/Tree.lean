import ModelText.Grammar.Document
import ModelText.Proofs.Lexical

/-!
# Derivations

The grammar of model text over tokens, as the trees of its derivations. A tree has the structure of
a document and the spellings of its tokens, and nothing of where they stand; its tokens in order are
what it derives (`Tree.Document.tokens`). A text has a derivation if it is a sequence of these tokens
with gaps between them (`Tree.Document.Derives`).

What the reader returns is a tree with positions (`Grammar.Document.tree` forgets them). To compare
the two, a sequence of tokens at the front of a text is followed token by token in the way the
reader goes, skipping a gap before each (`Scans`).
-/

namespace ModelText.Grammar

namespace Tree

/-- A JSON value. -/
inductive Value where
  | string (raw : List Char)
  | number (raw : List Char)
  | word (raw : List Char)
  | array (items : List Value)
  | object (members : List (List Char × Value))

mutual

/-- The tokens of a value. -/
def Value.tokens : Value → List Token
  | .string raw => [.string raw]
  | .number raw => [.number raw]
  | .word raw => [.word raw]
  | .array items => .mark '[' :: itemTokens items
  | .object members => .mark '\x7b' :: memberTokens members

/-- The tokens of items up to the closing bracket. -/
def itemTokens : List Value → List Token
  | [] => [.mark ']']
  | v :: vs => v.tokens ++ moreItemTokens vs

/-- The tokens of items after others, up to the closing bracket. -/
def moreItemTokens : List Value → List Token
  | [] => [.mark ']']
  | v :: vs => .mark ',' :: (v.tokens ++ moreItemTokens vs)

/-- The tokens of members up to the closing brace. -/
def memberTokens : List (List Char × Value) → List Token
  | [] => [.mark '\x7d']
  | (name, v) :: ms => .string name :: .mark ':' :: (v.tokens ++ moreMemberTokens ms)

/-- The tokens of members after others, up to the closing brace. -/
def moreMemberTokens : List (List Char × Value) → List Token
  | [] => [.mark '\x7d']
  | (name, v) :: ms => .mark ',' :: .string name :: .mark ':' :: (v.tokens ++ moreMemberTokens ms)

end

mutual

/-- The number of containers inside each other, the value itself included. -/
def Value.depth : Value → Nat
  | .array items => itemsDepth items + 1
  | .object members => membersDepth members + 1
  | _ => 0

/-- The depth of the deepest item. -/
def itemsDepth : List Value → Nat
  | [] => 0
  | v :: vs => max v.depth (itemsDepth vs)

/-- The depth of the deepest value of a member. -/
def membersDepth : List (List Char × Value) → Nat
  | [] => 0
  | (_, v) :: ms => max v.depth (membersDepth ms)

end

/-- A declaration: its kind, its path and the members of its body. -/
structure Entry where
  kind : List Char
  path : List Char
  body : List (List Char × Value)

/-- Imports, and declarations after them. -/
structure Block where
  imports : List (List Char)
  entries : List Entry

/-- A block without a header, and blocks each after a header. -/
structure Document where
  leading : Block
  sections : List (List Char × Block)

/-- The tokens of a declaration. -/
def Entry.tokens (e : Entry) : List Token :=
  .name e.kind :: .name e.path :: .mark '\x7b' :: memberTokens e.body

/-- How many containers the body of a declaration has inside each other, itself included. -/
def Entry.depth (e : Entry) : Nat :=
  membersDepth e.body + 1

/-- The tokens of an import. -/
def importTokens (path : List Char) : List Token :=
  [.name "import".toList, .importPath path, .mark ';']

/-- The tokens of a block. -/
def Block.tokens (b : Block) : List Token :=
  b.imports.flatMap importTokens ++ b.entries.flatMap Entry.tokens

/-- The tokens of a header and its block. -/
def sectionTokens (s : List Char × Block) : List Token :=
  .header s.1 :: s.2.tokens

/-- The tokens of a document. -/
def Document.tokens (d : Document) : List Token :=
  d.leading.tokens ++ d.sections.flatMap sectionTokens

/-- The declarations of a document. -/
def Document.entries (d : Document) : List Entry :=
  d.leading.entries ++ d.sections.flatMap (·.2.entries)

/-- **Derivations of a text.** The tree derives the text if the text is the sequence of its tokens.
The kind of a declaration is a name that is a single identifier. -/
structure Document.Derives (d : Document) (text : List Char) : Prop where
  lexes : Lexes text d.tokens
  kinds : ∀ e ∈ d.entries, Path.isWord e.kind

/-! ### Lists of parts -/

/-- The tokens of parts after others, with a comma before each and a closing mark at the end. -/
def moreTokens (close : Char) : List (List Token) → List Token
  | [] => [.mark close]
  | t :: ts => .mark ',' :: (t ++ moreTokens close ts)

/-- The tokens of parts with commas between them and a closing mark at the end. -/
def listTokens (close : Char) : List (List Token) → List Token
  | [] => [.mark close]
  | t :: ts => t ++ moreTokens close ts

/-- The tokens of a member. -/
def oneMemberTokens (m : List Char × Value) : List Token :=
  .string m.1 :: .mark ':' :: m.2.tokens

/-- A list never ends without its closing bracket. -/
theorem moreTokens_ne_nil (close : Char) (ts : List (List Token)) : moreTokens close ts ≠ [] := by
  cases ts <;> simp [moreTokens]

/-- The tokens of arrays and of objects are both those of a list of parts with commas between them. The
next lemmas say so, and later proofs speak of lists of parts only. -/
theorem moreItemTokens_eq (vs : List Value) :
    moreItemTokens vs = moreTokens ']' (vs.map Value.tokens) := by
  -- By induction on the items, a comma before each.
  induction vs with
  | nil => rfl
  | cons v vs ih => rw [moreItemTokens, ih]; rfl

/-- An array is a list of its items. -/
theorem itemTokens_eq (vs : List Value) :
    itemTokens vs = listTokens ']' (vs.map Value.tokens) := by
  cases vs with
  | nil => rfl
  | cons v vs => rw [itemTokens, moreItemTokens_eq]; rfl

theorem moreMemberTokens_eq (ms : List (List Char × Value)) :
    moreMemberTokens ms = moreTokens '\x7d' (ms.map oneMemberTokens) := by
  induction ms with
  | nil => rfl
  | cons m ms ih => rw [moreMemberTokens, ih]; rfl

/-- An object is a list of its members. -/
theorem memberTokens_eq (ms : List (List Char × Value)) :
    memberTokens ms = listTokens '\x7d' (ms.map oneMemberTokens) := by
  cases ms with
  | nil => rfl
  | cons m ms => rw [memberTokens, moreMemberTokens_eq]; rfl

end Tree

/-! ### What is read, without positions -/

/-- The tree of a scalar, whose class shows in its first character. -/
def Scalar.tree (s : Scalar) : Tree.Value :=
  match s.raw with
  | [] => .word []
  | c :: _ =>
    if c = '"' then .string s.raw
    else if Path.isInitial c then .word s.raw
    else .number s.raw

mutual

/-- The tree of a literal. -/
def Literal.tree : Literal → Tree.Value
  | .scalar s => s.tree
  | .array _ items => .array (itemTrees items)
  | .object _ members => .object (memberTrees members)

/-- The trees of items. -/
def itemTrees : List Literal → List Tree.Value
  | [] => []
  | l :: ls => l.tree :: itemTrees ls

/-- The names and the trees of members. -/
def memberTrees : List (Scalar × Literal) → List (List Char × Tree.Value)
  | [] => []
  | (name, l) :: ls => (name.raw, l.tree) :: memberTrees ls

end

/-- The name and the tree of a member. -/
def memberTree (m : Scalar × Literal) : List Char × Tree.Value :=
  (m.1.raw, m.2.tree)

/-- The trees of the items are found one by one. -/
theorem itemTrees_eq (ls : List Literal) : itemTrees ls = ls.map Literal.tree := by
  induction ls with
  | nil => rfl
  | cons l ls ih => rw [itemTrees, ih]; rfl

/-- So are those of the members. -/
theorem memberTrees_eq (ls : List (Scalar × Literal)) : memberTrees ls = ls.map memberTree := by
  induction ls with
  | nil => rfl
  | cons l ls ih => rw [memberTrees, ih]; rfl

/-- The tree of a declaration. -/
def Entry.tree (e : Entry) : Tree.Entry :=
  ⟨e.kind, e.path, e.body.map memberTree⟩

/-- The tree of a block, its header left out. -/
def Block.tree (b : Block) : Tree.Block :=
  ⟨b.imports, b.entries.map Entry.tree⟩

/-- The header of a block and its tree. -/
def Block.sectionTree (b : Block) : List Char × Tree.Block :=
  (b.header.getD [], b.tree)

/-- The tree of a document. -/
def Document.tree (d : Document) : Tree.Document :=
  ⟨d.leading.tree, d.sections.map Block.sectionTree⟩

/-! ### Following tokens -/

/-- The text begins with the tokens, with a gap before each, and `rest` follows right after the last
of them. -/
def Scans : List Char → List Token → List Char → Prop
  | cs, [], rest => cs = rest
  | cs, t :: ts, rest => ∃ mid, t.At (skip cs) mid ∧ Scans mid ts rest

@[simp] theorem scans_nil {cs rest : List Char} : Scans cs [] rest ↔ cs = rest := Iff.rfl

/-- The tokens are met one after another, each behind the gap before it. -/
theorem scans_cons {cs rest : List Char} {t : Token} {ts : List Token} :
    Scans cs (t :: ts) rest ↔ ∃ mid, t.At (skip cs) mid ∧ Scans mid ts rest := Iff.rfl

/-- They may be cut anywhere. -/
theorem scans_append {cs rest : List Char} {ts us : List Token} :
    Scans cs (ts ++ us) rest ↔ ∃ mid, Scans cs ts mid ∧ Scans mid us rest := by
  -- By induction on the tokens before the cut, of which each moves the text on to where it ends.
  induction ts generalizing cs with
  | nil => simp
  | cons t ts ih =>
    rw [List.cons_append, scans_cons]
    constructor
    · rintro ⟨a, ha, h⟩
      obtain ⟨b, hb, hc⟩ := ih.mp h
      exact ⟨b, ⟨a, ha, hb⟩, hc⟩
    · rintro ⟨b, ⟨a, ha, hb⟩, hc⟩
      exact ⟨a, ha, ih.mpr ⟨b, hb, hc⟩⟩

/-- A gap in front makes no difference to the tokens that follow it. -/
theorem scans_iff_of_skip_eq {cs ds rest : List Char} {ts : List Token} (hts : ts ≠ [])
    (h : skip cs = skip ds) : Scans cs ts rest ↔ Scans ds ts rest := by
  cases ts with
  | nil => exact absurd rfl hts
  | cons t ts => rw [scans_cons, scans_cons, h]

/-- A text is a sequence of tokens exactly if the tokens can be followed to its end. -/
theorem lexes_iff {cs : List Char} {ts : List Token} :
    Lexes cs ts ↔ ∃ rest, Scans cs ts rest ∧ skip rest = [] := by
  induction ts generalizing cs with
  | nil =>
    constructor
    · rintro ⟨h⟩
      exact ⟨cs, rfl, by rw [h.skip_eq, skip_nil]⟩
    · rintro ⟨rest, rfl, h⟩
      exact .done (h ▸ gap_skip cs)
  | cons t ts ih =>
    constructor
    · rintro (_ | ⟨hgap, hat, h⟩)
      obtain ⟨rest, hrest, hend⟩ := ih.mp h
      refine ⟨rest, ⟨_, ?_, hrest⟩, hend⟩
      -- The token stands after the gap, and `skip` goes over the gap and stops at the token.
      rwa [hgap.skip_eq, hat.skip_eq]
    · rintro ⟨rest, ⟨mid, hat, hrest⟩, hend⟩
      exact .token (gap_skip cs) hat (ih.mpr ⟨rest, hrest, hend⟩)

/-- Skipping does not make a text longer. -/
theorem length_skip_le (cs : List Char) : (skip cs).length ≤ cs.length := by
  fun_induction skip cs with
  | case1 cs rest h ih =>
    -- Blanks, then a comment, then whatever else is skipped after it.
    have hcomment := length_afterComment h
    have hblank := length_dropWhile_le isBlank cs
    omega
  | case2 cs h => exact length_dropWhile_le isBlank cs

/-- A token makes it shorter, as none of them is empty. -/
theorem Token.At.length_lt {t : Token} {cs rest : List Char} (h : t.At cs rest) :
    rest.length < cs.length := by
  obtain ⟨w, hw, rfl, -⟩ := h
  obtain ⟨c, ds, rfl, -⟩ := hw.exists_first
  simp only [List.cons_append, List.length_cons, List.length_append]
  omega

/-- Every token takes at least one character. -/
theorem Scans.length_le {cs rest : List Char} {ts : List Token} (h : Scans cs ts rest) :
    ts.length + rest.length ≤ cs.length := by
  induction ts generalizing cs with
  | nil =>
    cases h
    simp
  | cons t ts ih =>
    -- The gap before the token takes nothing back, and the token takes a character at least.
    obtain ⟨mid, hat, h⟩ := h
    have hmid := hat.length_lt
    have hskip := length_skip_le cs
    have hrest := ih h
    rw [List.length_cons]
    omega

end ModelText.Grammar
