import ModelText.Proofs.Denotation

/-!
# Decoding without a limit

Decoding checks at every container that it does not stand beyond the limit. Here is what literals,
bodies and documents mean if nothing is checked (`Document.elementsUnchecked`, `parseUnchecked`). What
nests within the limit means the same with the check and without it, errors included
(`Document.elements_eq_unchecked`), and without it no error is about the nesting
(`Document.elementsUnchecked_neverTooDeep`).
-/

namespace ModelText.Grammar

/-! ### Decoding -/

mutual

/-- What a literal of `text` means, however deep it nests. -/
def Literal.decodeUnchecked (text : List Char) : Literal → Except GrammarError Json
  | .scalar s => s.decode Json.read text
  | .array _ items => do
    let js ← decodeItemsUnchecked text items
    return .array js
  | .object _ members => do
    let ms ← decodeMembersUnchecked text members
    return .object (Json.insertMembers ms [])

/-- What the items of an array mean. -/
def decodeItemsUnchecked (text : List Char) : List Literal → Except GrammarError (List Json)
  | [] => .ok []
  | l :: ls => do
    let j ← l.decodeUnchecked text
    let js ← decodeItemsUnchecked text ls
    return j :: js

/-- What the members of an object mean, in text order. -/
def decodeMembersUnchecked (text : List Char) :
    List (Scalar × Literal) → Except GrammarError (List (String × Json))
  | [] => .ok []
  | (name, l) :: ls => do
    let name ← name.decode Json.readString text
    let j ← l.decodeUnchecked text
    let ms ← decodeMembersUnchecked text ls
    return (name, j) :: ms

end

variable {text : List Char} {limit : Nat}

mutual

/-- Within the limit the check never fails. -/
theorem Literal.decode_eq_unchecked : ∀ (l : Literal) {level : Nat},
    level + l.tree.depth ≤ limit + 1 → l.decode text limit level = l.decodeUnchecked text
  | .scalar s, level, _ => by rw [Literal.decode, Literal.decodeUnchecked]
  | .array start items, level, h => by
    rw [Literal.tree, Tree.Value.depth] at h
    have hlevel : ¬ limit < level := by omega
    rw [Literal.decode, if_neg hlevel, decodeItems_eq_unchecked items (by omega),
      Literal.decodeUnchecked]
  | .object start members, level, h => by
    rw [Literal.tree, Tree.Value.depth] at h
    have hlevel : ¬ limit < level := by omega
    rw [Literal.decode, if_neg hlevel, decodeMembers_eq_unchecked members (by omega),
      Literal.decodeUnchecked]

/-- The same of items: each of them begins at the level of the first. -/
theorem decodeItems_eq_unchecked : ∀ (ls : List Literal) {level : Nat},
    level + Tree.itemsDepth (itemTrees ls) ≤ limit + 1 →
      decodeItems text limit level ls = decodeItemsUnchecked text ls
  | [], _, _ => by rw [decodeItems, decodeItemsUnchecked]
  | l :: ls, level, h => by
    rw [itemTrees, Tree.itemsDepth] at h
    rw [decodeItems, l.decode_eq_unchecked (by omega), decodeItems_eq_unchecked ls (by omega),
      decodeItemsUnchecked]

/-- And of members. -/
theorem decodeMembers_eq_unchecked : ∀ (ls : List (Scalar × Literal)) {level : Nat},
    level + Tree.membersDepth (memberTrees ls) ≤ limit + 1 →
      decodeMembers text limit level ls = decodeMembersUnchecked text ls
  | [], _, _ => by rw [decodeMembers, decodeMembersUnchecked]
  | (name, l) :: ls, level, h => by
    -- The deeper of the two is within the limit, so both are.
    rw [memberTrees, Tree.membersDepth] at h
    rw [decodeMembers, l.decode_eq_unchecked (by omega), decodeMembers_eq_unchecked ls (by omega),
      decodeMembersUnchecked]

end

/-- The members of an object are in order, since within a limit that is high enough they are those that
the check lets pass. -/
theorem ordered_of_decodeMembersUnchecked {ls : List (Scalar × Literal)} {ms : List (String × Json)}
    (h : decodeMembersUnchecked text ls = .ok ms) : Json.OrderedMembers ms := by
  have heq := @decodeMembers_eq_unchecked text (Tree.membersDepth (memberTrees ls)) ls 1 (by omega)
  exact ordered_of_decodeMembers ls (heq.trans h)

/-- What the body of a declaration means. -/
def decodeBodyUnchecked (text : List Char) (body : List (Scalar × Literal)) :
    Except GrammarError Json.Object :=
  match h : decodeMembersUnchecked text body with
  | .error e => .error e
  | .ok ms =>
    .ok ⟨Json.insertMembers ms [],
      Json.Reader.ordered_object_insertMembers (ordered_of_decodeMembersUnchecked h)⟩

/-- The declaration that an entry of `text` means. -/
def Entry.declarationUnchecked (text : List Char) (keepSource : Bool) (entry : Entry) :
    Except GrammarError Declaration := do
  let body ← decodeBodyUnchecked text entry.body
  return {
    kind := String.ofList entry.kind
    path := String.ofList entry.path
    body
    source := if keepSource then some (span text entry.start entry.stop) else none }

/-- The elements that a document in `text` means. -/
def Document.elementsUnchecked (text : List Char) (keepSource : Bool) (document : Document) :
    Except GrammarError (List Element) := do
  let declarations ← (document.leading :: document.sections).mapM fun block =>
    block.entries.mapM (Entry.declarationUnchecked text keepSource)
  let index : SectionIndex :=
    { sections := document.sectionBlocks.map (Block.toSection text keepSource) }
  return declarations.flatten.map .declaration ++
    (if document.hasIndex then [.sectionIndex index] else [])

/-- The elements of a text, whose brackets are still scanned first. -/
def parseUnchecked (text : String) (keepSource : Bool) : Except GrammarError (List Element) := do
  checkNesting text.toList
  let document ← Document.read text.toList
  document.elementsUnchecked text.toList keepSource

/-! ### Within the limit -/

/-- A body within the limit decodes as without one. -/
theorem decodeBody_eq_unchecked {body : List (Scalar × Literal)}
    (h : Tree.membersDepth (memberTrees body) + 1 ≤ limit) :
    decodeBody text limit body = decodeBodyUnchecked text body := by
  have heq : decodeMembers text limit 2 body = decodeMembersUnchecked text body :=
    decodeMembers_eq_unchecked body (by omega)
  unfold decodeBody decodeBodyUnchecked
  split <;> split <;> simp_all

/-- So does a declaration, whose depth is one more than that of its members. -/
theorem Entry.declaration_eq_unchecked {e : Entry} (h : e.tree.depth ≤ maxDepth) (keepSource : Bool) :
    e.declaration text keepSource = e.declarationUnchecked text keepSource := by
  rw [Tree.Entry.depth, Entry.tree, ← memberTrees_eq] at h
  rw [Entry.declaration, decodeBody_eq_unchecked h, Entry.declarationUnchecked]

/-- Running two functions over a list gives the same if they agree on its elements. -/
theorem mapM_congr {m : Type → Type} [Monad m] [LawfulMonad m] {α β : Type} {f g : α → m β}
    {as : List α} (h : ∀ a ∈ as, f a = g a) : as.mapM f = as.mapM g := by
  -- By induction on the list.
  induction as with
  | nil => rfl
  | cons a as ih =>
    obtain ⟨ha, has⟩ := List.forall_mem_cons.mp h
    rw [List.mapM_cons, List.mapM_cons, ha, ih has]

/-- **Within the limit nothing changes.** -/
theorem Document.elements_eq_unchecked {d : Document} (h : ∀ e ∈ d.entries, e.tree.depth ≤ maxDepth)
    (keepSource : Bool) : d.elements text keepSource = d.elementsUnchecked text keepSource := by
  have hblocks : (d.leading :: d.sections).mapM (Block.declarations text keepSource) =
      (d.leading :: d.sections).mapM fun block =>
        block.entries.mapM (Entry.declarationUnchecked text keepSource) := by
    refine mapM_congr fun block hblock => mapM_congr fun e he => ?_
    exact Entry.declaration_eq_unchecked (h e (List.mem_flatMap.mpr ⟨block, hblock, he⟩)) keepSource
  rw [Document.elements, hblocks, Document.elementsUnchecked]

/-! ### Errors -/

/-- If it fails, then not for the nesting. -/
def NeverTooDeep {α : Type} (x : Except GrammarError α) : Prop :=
  ∀ n position, x ≠ .error (.parse (.nestedTooDeep n) position)

/-- Steps that do not complain of the depth do not do so one after another. -/
theorem NeverTooDeep.bind {α β : Type} {x : Except GrammarError α} {f : α → Except GrammarError β}
    (hx : NeverTooDeep x) (hf : ∀ a, NeverTooDeep (f a)) : NeverTooDeep (x >>= f) := by
  intro n position h
  cases x with
  | error e => exact hx n position (congrArg Except.error (Except.error.inj h))
  | ok a => exact hf a n position h

/-- An answer is not a complaint. -/
theorem neverTooDeep_ok {α : Type} (a : α) : NeverTooDeep (.ok a) := nofun

/-- Nor does a list of such steps complain. -/
theorem NeverTooDeep.mapM {α β : Type} {f : α → Except GrammarError β} {as : List α}
    (hf : ∀ a, NeverTooDeep (f a)) : NeverTooDeep (as.mapM f) := by
  -- By induction on the list: an error of the first element or of the rest.
  induction as with
  | nil => exact neverTooDeep_ok []
  | cons a as ih =>
    rw [List.mapM_cons]
    exact (hf a).bind fun b => ih.bind fun bs => neverTooDeep_ok (b :: bs)

/-- A scalar that does not decode is reported as malformed, never as too deep. -/
theorem Scalar.decode_neverTooDeep {α : Type} (reader : List Char → Except Json.Error α)
    (s : Scalar) : NeverTooDeep (s.decode reader text) := by
  intro n position h
  unfold Scalar.decode at h
  -- The error is that of the reader, which is of another kind.
  cases hread : reader s.raw with
  | error e =>
    rw [hread] at h
    cases h
  | ok a =>
    rw [hread] at h
    cases h

mutual

/-- So without the check nothing in a value is too deep. -/
theorem Literal.decodeUnchecked_neverTooDeep : ∀ l : Literal,
    NeverTooDeep (l.decodeUnchecked text)
  | .scalar s => by
    rw [Literal.decodeUnchecked]
    exact s.decode_neverTooDeep Json.read
  | .array _ items => by
    rw [Literal.decodeUnchecked]
    exact (decodeItemsUnchecked_neverTooDeep items).bind fun _ => neverTooDeep_ok _
  | .object _ members => by
    rw [Literal.decodeUnchecked]
    exact (decodeMembersUnchecked_neverTooDeep members).bind fun _ => neverTooDeep_ok _

theorem decodeItemsUnchecked_neverTooDeep : ∀ ls : List Literal,
    NeverTooDeep (decodeItemsUnchecked text ls)
  | [] => by
    rw [decodeItemsUnchecked]
    exact neverTooDeep_ok []
  | l :: ls => by
    rw [decodeItemsUnchecked]
    exact l.decodeUnchecked_neverTooDeep.bind fun _ =>
      (decodeItemsUnchecked_neverTooDeep ls).bind fun _ => neverTooDeep_ok _

theorem decodeMembersUnchecked_neverTooDeep : ∀ ls : List (Scalar × Literal),
    NeverTooDeep (decodeMembersUnchecked text ls)
  | [] => by
    rw [decodeMembersUnchecked]
    exact neverTooDeep_ok []
  | (name, l) :: ls => by
    rw [decodeMembersUnchecked]
    exact (name.decode_neverTooDeep Json.readString).bind fun _ =>
      l.decodeUnchecked_neverTooDeep.bind fun _ =>
        (decodeMembersUnchecked_neverTooDeep ls).bind fun _ => neverTooDeep_ok _

end

/-- **Without the check no error is about the nesting.** -/
theorem Document.elementsUnchecked_neverTooDeep (d : Document) (keepSource : Bool) :
    NeverTooDeep (d.elementsUnchecked text keepSource) := by
  have hbody : ∀ body, NeverTooDeep (decodeBodyUnchecked text body) := by
    intro body n position h
    unfold decodeBodyUnchecked at h
    split at h
    · next e he =>
      refine decodeMembersUnchecked_neverTooDeep body n position (he.trans ?_)
      cases h
      rfl
    · cases h
  have hentry : ∀ e, NeverTooDeep (Entry.declarationUnchecked text keepSource e) := fun e =>
    (hbody e.body).bind fun _ => neverTooDeep_ok _
  exact (NeverTooDeep.mapM fun block => NeverTooDeep.mapM hentry).bind fun _ => neverTooDeep_ok _

end ModelText.Grammar
