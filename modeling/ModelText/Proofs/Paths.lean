import ModelText.Path
import ModelText.Proofs.Spelling

/-!
# Paths and names

The paths that pass the test for being valid are the names of the grammar, identifiers joined by
separators (`Path.isValid_iff`). Cutting such a path at its last separator and joining the two parts
gives it back (`Path.join_package_name`).
-/

namespace ModelText.Path

open Grammar (IsName isInner_of_isInitial ne_colon_of_isInner)

/-! ### Segments -/

/-- Every text has a segment, even the empty one. -/
theorem segments_ne_nil (cs : List Char) : segments cs ≠ [] := by
  fun_induction segments cs with
  | case1 => simp
  | case2 => simp
  | case3 c rest h ih =>
    intro hnil
    exact ih (List.modifyHead_eq_nil_iff.mp hnil)

/-- A text is its segments with separators between them. -/
theorem intercalate_segments (cs : List Char) : [':', ':'].intercalate (segments cs) = cs := by
  fun_induction segments cs with
  | case1 => rfl
  | case2 rest ih =>
    rw [List.intercalate_cons_of_ne_nil (segments_ne_nil rest), ih]
    rfl
  | case3 c rest h ih =>
    obtain ⟨w, ws, heq⟩ := List.exists_cons_of_ne_nil (segments_ne_nil rest)
    rw [heq] at ih ⊢
    rw [List.modifyHead_cons, List.intercalate_cons_cons_left, ih]

/-- A character that is not a colon goes to the first segment of what follows. -/
theorem segments_cons {c : Char} (hc : c ≠ ':') (rest : List Char) :
    segments (c :: rest) = (segments rest).modifyHead (c :: ·) := by
  rw [segments]
  exact fun _ heq _ => hc heq

/-- Without colons there is just one segment. -/
theorem segments_of_notMem {w : List Char} (h : ∀ c ∈ w, c ≠ ':') : segments w = [w] := by
  induction w with
  | nil => rfl
  | cons c w ih =>
    obtain ⟨hc, hw⟩ := List.forall_mem_cons.mp h
    rw [segments_cons hc, ih hw]
    rfl

/-- A word in front of a separator is a segment of its own. -/
theorem segments_append {w : List Char} (h : ∀ c ∈ w, c ≠ ':') (rest : List Char) :
    segments (w ++ ':' :: ':' :: rest) = w :: segments rest := by
  -- By induction on the word.
  induction w with
  | nil => rfl
  | cons c w ih =>
    obtain ⟨hc, hw⟩ := List.forall_mem_cons.mp h
    rw [List.cons_append, segments_cons hc, ih hw]
    rfl

/-- Words have no colons. -/
theorem ne_colon_of_isWord {w : List Char} (h : isWord w) : ∀ c ∈ w, c ≠ ':' := by
  obtain _ | ⟨d, w⟩ := w
  · simp
  · simp only [isWord_cons, Bool.and_eq_true, List.all_eq_true] at h
    refine List.forall_mem_cons.mpr ⟨?_, fun c hc => ?_⟩
    · exact ne_colon_of_isInner (isInner_of_isInitial h.1)
    · exact ne_colon_of_isInner (h.2 c hc)

/-- Words with separators between them are a name, if there is any word. -/
theorem isName_intercalate {ws : List (List Char)} (hne : ws ≠ []) (h : ∀ w ∈ ws, isWord w) :
    IsName ([':', ':'].intercalate ws) := by
  -- By induction on the words. The last one has no separator behind it.
  induction ws with
  | nil => exact absurd rfl hne
  | cons w ws ih =>
    obtain ⟨hw, hws⟩ := List.forall_mem_cons.mp h
    obtain _ | ⟨v, vs⟩ := ws
    · rw [List.intercalate_singleton]
      exact .word hw
    · rw [List.intercalate_cons_cons, List.append_assoc]
      exact .join hw (ih (by simp) hws)

/-- **Names.** A text is a name exactly if all its segments are identifiers. -/
theorem isName_iff_segments {w : List Char} : IsName w ↔ (segments w).all isWord := by
  constructor
  · intro h
    -- By induction on the name, which grows by one segment at a time.
    induction h with
    | word hw => rw [segments_of_notMem (ne_colon_of_isWord hw)]; simpa using hw
    | join hw _ ih => rw [segments_append (ne_colon_of_isWord hw), List.all_cons, hw, ih]; rfl
  · intro h
    rw [← intercalate_segments w]
    exact isName_intercalate (segments_ne_nil w) (List.all_eq_true.mp h)

/-- A path is valid if it is a qualified name in the sense of the grammar. -/
theorem isValid_iff {path : String} : isValid path ↔ IsName path.toList :=
  isName_iff_segments.symm

/-- The same for a path that is given by its characters. -/
theorem isValid_ofList {w : List Char} : isValid (String.ofList w) ↔ IsName w := by
  rw [isValid_iff, String.toList_ofList]

/-- An identifier is a word in the sense of the grammar. -/
theorem isIdentifier_ofList {w : List Char} : isIdentifier (String.ofList w) = isWord w := by
  rw [isIdentifier, String.toList_ofList]

/-! ### The last separator -/

/-- What is cut at a separator can be put together again. -/
theorem cutLast_eq_some {cs package name : List Char} (h : cutLast cs = some (package, name)) :
    cs = package ++ ':' :: ':' :: name := by
  -- By induction on the text. The cut is as far to the right as there is one.
  induction cs generalizing package with
  | nil => cases h
  | cons c rest ih =>
    unfold cutLast at h
    split at h
    · next heq =>
      cases h
      rw [ih heq]
      rfl
    · split at h
      · cases h
        rfl
      · cases h

/-- A text that is not cut right at its beginning is made again from its two parts. -/
theorem join_split {path : String} (h : ∀ name, cutLast path.toList ≠ some ([], name)) :
    join (package path) (name path) = path := by
  unfold package name split
  -- Without a separator the name is the whole path, and joining it to an empty package leaves it alone.
  cases hcut : cutLast path.toList with
  | none => rfl
  | some parts =>
    obtain ⟨package, name⟩ := parts
    have hpackage : package ≠ [] := by
      rintro rfl
      exact h name hcut
    have hempty : (String.ofList package).isEmpty = false := by
      rw [String.isEmpty_eq_false_iff]
      simpa using hpackage
    dsimp only
    rw [Option.getD_some, join, hempty, if_neg (by decide)]
    apply String.toList_injective
    rw [cutLast_eq_some hcut]
    simp

/-- **Cutting and joining.** The package and the simple name of a valid path make the path again. -/
theorem join_package_name {path : String} (h : isValid path) :
    join (package path) (name path) = path := by
  refine join_split fun name hcut => ?_
  -- With an empty package the path would begin with a separator.
  obtain ⟨c, cs, heq, hc, -⟩ := Grammar.isName_iff.mp (isValid_iff.mp h)
  rw [cutLast_eq_some hcut] at heq
  obtain ⟨rfl, -⟩ := List.cons.inj heq
  exact absurd hc (by decide)

end ModelText.Path
