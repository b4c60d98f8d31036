import ModelText.Proofs.Paths

/-!
# Where separators stand

Three ways of looking for separators meet in a path. Whether a path is valid is found by cutting it at
its separators from the left (`Path.segments`). Its package and its simple name come from a single cut,
at the last separator (`Path.cutLast`). The grammar reads an identifier at a time, and it goes back to
the end of the last one where the separator after it is not followed by another (`qualifiedName_eq`). In
a run of colons the three do not cut at the same place.

They agree all the same on the paths that matter. The place of the single cut is the last one at which a
separator stands (`lastSeparatorAt_of_cutLast`), and a text that is cut there is made again by joining its
parts, unless nothing stands in front of the cut (`join_split_iff`). A name is cut into a name and an
identifier (`IsName.cutLast_cases`), and joining an identifier to any package is undone by the cut
(`cutLast_join`).
-/

namespace ModelText

/-! ### The rule of the grammar -/

namespace Grammar

/-- A lexeme that finds nothing where the text does not begin with what it looks for. -/
def Lexeme.optional (l : Lexeme) : Lexeme := fun cs =>
  some ((l cs).getD ([], cs))

/-- A separator and a name after it. -/
def joinedName : Lexeme :=
  Lexeme.andThen (exactly "::".toList) qualifiedName

theorem joinedName_cons (cs : List Char) :
    joinedName (':' :: ':' :: cs) =
      (qualifiedName cs).map fun (w, rest) => (':' :: ':' :: w, rest) := rfl

/-- Without a separator in front there is nothing that is joined. -/
theorem joinedName_eq_none {cs : List Char} (h : ∀ rest, cs ≠ ':' :: ':' :: rest) :
    joinedName cs = none := by
  have hnone : exactly "::".toList cs = none := by
    rw [Option.eq_none_iff_forall_not_mem]
    rintro ⟨w, rest⟩ hfound
    exact h rest (exactly_eq_some_iff.mp hfound).2
  rw [joinedName, Lexeme.andThen, hnone, Option.bind_none]

/-- The tail of a name goes on to the end of an identifier, and from there anew. -/
theorem nameTail_takeWhile (cs : List Char) :
    nameTail cs = (cs.takeWhile Path.isInner ++ (nameTail (cs.dropWhile Path.isInner)).1,
      (nameTail (cs.dropWhile Path.isInner)).2) := by
  -- By induction on the text, up to the end of the identifier.
  induction cs with
  | nil => rfl
  | cons c cs ih =>
    by_cases hc : Path.isInner c
    · rw [nameTail_inner cs hc, List.takeWhile_cons_of_pos hc, List.dropWhile_cons_of_pos hc, ih]
      rfl
    · rw [List.takeWhile_cons_of_neg hc, List.dropWhile_cons_of_neg hc]
      rfl

/-- Where an identifier has ended, a name goes on with a separator and a name, or not at all. -/
theorem nameTail_of_not_isInner {cs : List Char} (h : ∀ c ∈ cs.head?, ¬ Path.isInner c) :
    some (nameTail cs) = joinedName.optional cs := by
  unfold Lexeme.optional
  fun_cases nameTail cs with
  | case1 => rfl
  | case2 c rest hc more rest' heq =>
    rw [joinedName_cons, qualifiedName, if_pos hc, heq]
    rfl
  | case3 c rest hc =>
    rw [joinedName_cons, qualifiedName, if_neg hc]
    rfl
  | case4 c rest _ hc => exact absurd hc (h c rfl)
  | case5 c rest hnext _ =>
    -- A separator at the very end of the text has nothing after it either.
    have hnone : joinedName (c :: rest) = none := by
      by_cases hjoin : c = ':' ∧ rest = [':']
      · obtain ⟨rfl, rfl⟩ := hjoin
        rfl
      · refine joinedName_eq_none fun rest' heq => ?_
        obtain ⟨rfl, rfl⟩ := List.cons.inj heq
        cases rest' with
        | nil => exact hjoin ⟨rfl, rfl⟩
        | cons d rest' => exact hnext d rest' rfl rfl
    rw [hnone]
    rfl

theorem head?_dropWhile_not_isInner (cs : List Char) :
    ∀ c ∈ (cs.dropWhile Path.isInner).head?, ¬ Path.isInner c := by
  intro c hc
  have hnot := List.head?_dropWhile_not Path.isInner cs
  rw [Option.mem_def.mp hc] at hnot
  simpa using hnot

/-- **Qualified names.** The rule takes an identifier and then, if a separator and another name follow,
these as well. -/
theorem qualifiedName_eq : qualifiedName = Lexeme.andThen identifier joinedName.optional := by
  funext cs
  unfold Lexeme.andThen
  cases cs with
  | nil => rfl
  | cons c cs =>
    -- Both want an initial character first. Behind it the identifier and the tail of the name go the same
    -- way.
    by_cases hc : Path.isInitial c
    · rw [qualifiedName, if_pos hc, identifier, if_pos hc, Option.bind_some]
      dsimp only
      rw [← nameTail_of_not_isInner (head?_dropWhile_not_isInner cs), nameTail_takeWhile cs]
      rfl
    · rw [qualifiedName, if_neg hc, identifier, if_neg hc, Option.bind_none]

end Grammar

namespace Path

open Grammar (IsName identifier qualifiedName joinedName munches_identifier munches_qualifiedName)

variable {s : String}

/-- A path is valid exactly if the rule for qualified names takes all of it. -/
theorem isValid_iff_qualifiedName : isValid s ↔ qualifiedName s.toList = some (s.toList, []) := by
  rw [isValid_iff, munches_qualifiedName.eq_some_iff]
  simp

/-- A text is an identifier exactly if the rule for identifiers takes all of it. -/
theorem isIdentifier_iff_identifier :
    isIdentifier s ↔ identifier s.toList = some (s.toList, []) := by
  rw [isIdentifier, munches_identifier.eq_some_iff]
  simp

/-! ### Places of separators -/

/-- A separator stands at a place of a text. -/
def SeparatorAt (cs : List Char) (i : Nat) : Prop :=
  "::".toList <+: cs.drop i

/-- The last of the separators of a text stands at a place. -/
def LastSeparatorAt (cs : List Char) (i : Nat) : Prop :=
  SeparatorAt cs i ∧ ∀ j, SeparatorAt cs j → j ≤ i

/-- A separator is two colons. -/
theorem separatorAt_iff {cs : List Char} {i : Nat} :
    SeparatorAt cs i ↔ ∃ rest, cs.drop i = ':' :: ':' :: rest :=
  exists_congr fun _ => eq_comm

theorem separatorAt_zero (name : List Char) : SeparatorAt (':' :: ':' :: name) 0 :=
  ⟨name, rfl⟩

theorem not_separatorAt_nil (i : Nat) : ¬ SeparatorAt [] i := by
  rw [separatorAt_iff, List.drop_nil]
  exact nofun

/-- There is one last separator at most. -/
theorem LastSeparatorAt.eq {cs : List Char} {i j : Nat} (hi : LastSeparatorAt cs i)
    (hj : LastSeparatorAt cs j) : i = j :=
  Nat.le_antisymm (hj.2 i hi.1) (hi.2 j hj.1)

/-- Identifiers are the valid paths without a separator. -/
theorem isIdentifier_iff : isIdentifier s ↔ isValid s ∧ ¬ "::".toList <:+: s.toList := by
  rw [isValid_iff, isIdentifier]
  constructor
  · intro h
    refine ⟨.word h, fun hcolons => ?_⟩
    exact ne_colon_of_isWord h ':' (hcolons.subset (by decide)) rfl
  · rintro ⟨h, hno⟩
    -- A name that is joined from several identifiers has a separator.
    generalize s.toList = cs at h hno
    cases h with
    | word hw => exact hw
    | @join w rest hw hrest => exact absurd ⟨w, rest, by simp⟩ hno

/-! ### The cut at the last separator -/

/-- If the rest is cut, the first character goes to the package. -/
theorem cutLast_cons {c : Char} {cs package name : List Char} (h : cutLast cs = some (package, name)) :
    cutLast (c :: cs) = some (c :: package, name) := by
  unfold cutLast
  rw [h]

/-- If it is not, a separator at the beginning is the last one. -/
theorem cutLast_cons_cons {name : List Char} (h : cutLast (':' :: name) = none) :
    cutLast (':' :: ':' :: name) = some ([], name) := by
  rw [cutLast, h]

/-- **Where a text is not cut.** No separator stands anywhere in it. -/
theorem cutLast_eq_none_iff {cs : List Char} : cutLast cs = none ↔ ∀ i, ¬ SeparatorAt cs i := by
  -- By induction on the text. A separator stands at the first character or further behind.
  induction cs with
  | nil => exact ⟨fun _ => not_separatorAt_nil, fun _ => rfl⟩
  | cons c cs ih =>
    constructor
    · intro h i hi
      cases hcut : cutLast cs with
      | some parts =>
        rw [cutLast_cons hcut] at h
        cases h
      | none =>
        cases i with
        | zero =>
          obtain ⟨name, heq⟩ := separatorAt_iff.mp hi
          obtain ⟨rfl, rfl⟩ := List.cons.inj heq
          rw [cutLast_cons_cons hcut] at h
          cases h
        | succ i => exact ih.mp hcut i hi
    · intro h
      have hcut : cutLast cs = none := ih.mpr fun i hi => h (i + 1) hi
      unfold cutLast
      rw [hcut]
      dsimp only
      split
      · exact absurd (separatorAt_zero _) (h 0)
      · rfl

/-- **Where a text is cut.** The cut is at the last of the separators. -/
theorem lastSeparatorAt_of_cutLast {cs package name : List Char}
    (h : cutLast cs = some (package, name)) : LastSeparatorAt cs package.length := by
  -- By induction on the text: either the rest of it is cut, or it has no separator any more.
  induction cs generalizing package with
  | nil => cases h
  | cons c cs ih =>
    cases hcut : cutLast cs with
    | some parts =>
      rw [cutLast_cons hcut] at h
      cases h
      obtain ⟨hat, hlast⟩ := ih hcut
      refine ⟨hat, fun j hj => ?_⟩
      cases j with
      | zero => exact Nat.zero_le _
      | succ j => exact Nat.succ_le_succ (hlast j hj)
    | none =>
      have hnone := cutLast_eq_none_iff.mp hcut
      have heq := cutLast_eq_some h
      cases package with
      | nil =>
        rw [heq]
        refine ⟨separatorAt_zero name, fun j hj => ?_⟩
        obtain ⟨rfl, rfl⟩ := List.cons.inj heq
        cases j with
        | zero => exact Nat.le_refl 0
        | succ j => exact absurd hj (hnone j)
      | cons d package =>
        -- The cut would be inside the rest.
        have hrest : cs = package ++ ':' :: ':' :: name := (List.cons.inj heq).2
        refine absurd ?_ (hnone package.length)
        rw [separatorAt_iff, hrest, List.drop_left]
        exact ⟨name, rfl⟩

/-- What stands in front of a text with a cut goes to its package. -/
theorem cutLast_append {cs package name : List Char} (front : List Char)
    (h : cutLast cs = some (package, name)) :
    cutLast (front ++ cs) = some (front ++ package, name) := by
  -- By induction on what stands in front.
  induction front with
  | nil => exact h
  | cons c front ih => exact cutLast_cons ih

/-- A word is not cut. -/
theorem cutLast_of_isWord {w : List Char} (h : isWord w) : cutLast w = none := by
  refine cutLast_eq_none_iff.mpr fun i hi => ?_
  obtain ⟨rest, heq⟩ := separatorAt_iff.mp hi
  have hmem : ':' ∈ w.drop i := heq ▸ List.mem_cons_self
  exact ne_colon_of_isWord h ':' (List.mem_of_mem_drop hmem) rfl

/-- **Joining and cutting.** An identifier that is joined to a package is cut off again. -/
theorem cutLast_join {name : List Char} (h : isWord name) (package : List Char) :
    cutLast (package ++ ':' :: ':' :: name) = some (package, name) := by
  have hname := cutLast_of_isWord h
  -- The identifier does not begin with the second half of another separator.
  have hcolon : cutLast (':' :: name) = none := by
    refine cutLast_eq_none_iff.mpr fun i hi => ?_
    cases i with
    | zero =>
      obtain ⟨rest, heq⟩ := separatorAt_iff.mp hi
      obtain ⟨-, rfl⟩ := List.cons.inj heq
      exact ne_colon_of_isWord h ':' List.mem_cons_self rfl
    | succ i => exact cutLast_eq_none_iff.mp hname i hi
  have hcut := cutLast_append package (cutLast_cons_cons hcolon)
  rwa [List.append_nil] at hcut

/-- A name is an identifier, or it is cut into a name and an identifier. -/
theorem IsName.cutLast_cases {w : List Char} (h : IsName w) :
    (cutLast w = none ∧ isWord w) ∨
      ∃ package name, cutLast w = some (package, name) ∧ IsName package ∧ isWord name := by
  -- By induction on the words of the name: the last of them is cut off.
  induction h with
  | word hw => exact .inl ⟨cutLast_of_isWord hw, hw⟩
  | @join w rest hw hrest ih =>
    right
    rcases ih with ⟨-, hword⟩ | ⟨package, name, hcut, hpackage, hname⟩
    · exact ⟨w, rest, cutLast_join hword w, .word hw, hword⟩
    · refine ⟨w ++ ':' :: ':' :: package, name, ?_, .join hw hpackage, hname⟩
      have hfront := cutLast_append (w ++ [':', ':']) hcut
      simpa using hfront

/-! ### Packages and simple names -/

theorem split_of_none (h : cutLast s.toList = none) : split s = (none, s) := by
  rw [split, h]

theorem split_of_some {package name : List Char} (h : cutLast s.toList = some (package, name)) :
    split s = (some (String.ofList package), String.ofList name) := by
  rw [split, h]

/-- With the last separator at its very beginning, a text is the separator and its simple name. -/
theorem split_of_lastSeparatorAt_zero (h : LastSeparatorAt s.toList 0) :
    (split s).1 = some "" ∧ s = "::" ++ (split s).2 := by
  cases hcut : cutLast s.toList with
  | none => exact absurd h.1 (cutLast_eq_none_iff.mp hcut 0)
  | some parts =>
    obtain ⟨package, name⟩ := parts
    have hlength := (lastSeparatorAt_of_cutLast hcut).eq h
    obtain rfl := List.length_eq_zero_iff.mp hlength
    rw [split_of_some hcut]
    refine ⟨rfl, String.toList_injective ?_⟩
    rw [cutLast_eq_some hcut]
    simp

theorem join_of_lastSeparatorAt_zero (h : LastSeparatorAt s.toList 0) :
    join (package s) (name s) = name s ∧ s = "::" ++ name s := by
  obtain ⟨hpackage, hs⟩ := split_of_lastSeparatorAt_zero h
  refine ⟨?_, hs⟩
  rw [package, hpackage]
  rfl

/-- **Cutting and joining a text.** Only the separator at the very beginning is lost, where it is the
last one. -/
theorem join_split_iff : join (package s) (name s) = s ↔ ¬ LastSeparatorAt s.toList 0 := by
  constructor
  · intro hjoin hlast
    obtain ⟨hname, hs⟩ := join_of_lastSeparatorAt_zero hlast
    -- The simple name would be longer than itself by the separator.
    have hlonger := congrArg String.length hs
    rw [← hname, hjoin, String.length_append] at hlonger
    have htwo : "::".length = 2 := rfl
    omega
  · intro hlast
    refine join_split fun name hcut => hlast ?_
    exact lastSeparatorAt_of_cutLast hcut

/-- The parts of a valid path are valid. -/
theorem split_of_isValid (h : isValid s) :
    isIdentifier (split s).2 ∧ ∀ package, (split s).1 = some package → isValid package := by
  rcases IsName.cutLast_cases (isValid_iff.mp h) with
    ⟨hcut, hword⟩ | ⟨package, name, hcut, hpackage, hname⟩
  · rw [split_of_none hcut]
    exact ⟨hword, nofun⟩
  · rw [split_of_some hcut]
    refine ⟨isIdentifier_ofList.trans hname, ?_⟩
    rintro _ ⟨⟩
    exact isValid_ofList.mpr hpackage

/-- An identifier in a package is cut into the two again. -/
theorem split_join {package name : String} (h : isIdentifier name) :
    split (join package name) = (if package = "" then none else some package, name) := by
  unfold join
  by_cases hpackage : package = ""
  · subst hpackage
    exact split_of_none (cutLast_of_isWord h)
  · have hempty : package.isEmpty = false := by
      rw [String.isEmpty_eq_false_iff]
      exact hpackage
    rw [hempty, if_neg Bool.false_ne_true, if_neg hpackage]
    have htext : (package ++ "::" ++ name).toList = package.toList ++ ':' :: ':' :: name.toList := by
      simp
    have hcut := cutLast_join h package.toList
    rw [← htext] at hcut
    rw [split_of_some hcut, String.ofList_toList, String.ofList_toList]

/-- **Paths and the grammar.** The test for a valid path accepts what the rule for qualified names takes as
a whole, and with it the texts without a separator that the rule for identifiers takes. Every text is made
again from its package and its simple name, unless its last separator stands at its very beginning, and
then the simple name is all that is left. The parts of a valid path are valid, and an identifier that is
joined to a package is cut off again. -/
theorem helpers_agree_with_grammar :
    qualifiedName = Grammar.Lexeme.andThen identifier joinedName.optional ∧
    (∀ s, isValid s ↔ qualifiedName s.toList = some (s.toList, [])) ∧
    (∀ s, (isValid s ∧ ¬ "::".toList <:+: s.toList ↔ identifier s.toList = some (s.toList, [])) ∧
      (isIdentifier s ↔ identifier s.toList = some (s.toList, []))) ∧
    (∀ s, join ((split s).1.getD "") (split s).2 = s ↔ ¬ LastSeparatorAt s.toList 0) ∧
    (∀ s, LastSeparatorAt s.toList 0 →
      join ((split s).1.getD "") (split s).2 = (split s).2 ∧ s = "::" ++ (split s).2) ∧
    (∀ s, isValid s →
      isIdentifier (split s).2 ∧ ∀ package, (split s).1 = some package → isValid package) ∧
    ∀ package name, isIdentifier name →
      split (join package name) = (if package = "" then none else some package, name) := by
  refine ⟨Grammar.qualifiedName_eq, fun s => isValid_iff_qualifiedName,
    fun s => ⟨?_, isIdentifier_iff_identifier⟩,
    fun s => join_split_iff, fun s hlast => ?_, fun s => split_of_isValid, fun package name => split_join⟩
  · rw [← isIdentifier_iff, isIdentifier_iff_identifier]
  · exact join_of_lastSeparatorAt_zero hlast

/-- A path of three identifiers, a text that is nothing but a separator and a name, and a package that
ends in a colon. -/
theorem helpers_agree_with_grammar_colons :
    (isValid "a::b_1::C" ∧ isIdentifier (split "a::b_1::C").2 ∧
        ∀ package, (split "a::b_1::C").1 = some package → isValid package) ∧
      (LastSeparatorAt "::B".toList 0 ∧
        join ((split "::B").1.getD "") (split "::B").2 = (split "::B").2) ∧
      (isIdentifier "C" ∧ split (join "a:" "C") = (some "a:", "C")) := by
  obtain ⟨-, -, -, -, hbare, hparts, hjoin⟩ := helpers_agree_with_grammar
  have hvalid : isValid "a::b_1::C" := by decide
  have hcut : cutLast "::B".toList = some ([], ['B']) := by decide
  have hlast : LastSeparatorAt "::B".toList 0 := lastSeparatorAt_of_cutLast hcut
  have hidentifier : isIdentifier "C" := by decide
  exact ⟨⟨hvalid, hparts _ hvalid⟩, ⟨hlast, (hbare _ hlast).1⟩, hidentifier,
    hjoin "a:" "C" hidentifier⟩

end Path

end ModelText
