import ModelText.Proofs.Selection

/-!
# Selecting by counts

What `classify` makes of a parse depends on how many elements it has, how many of them are indexes, and
whether the first index imports anything. `Selects` is the table of its answers, each with the numbers
that lead to it. One row applies to every parse (`exists_selects`) and the answer is the one of that row
(`Selects.classify_eq`), so the answers tell the rows apart (`classify_eq_iff`).

Imports are noticed in a pair of elements only, and in a pair of indexes only in the first of them. A
longer parse is refused for its counts, whatever it imports.
-/

namespace ModelText

open Element (declarations sectionIndexes ImportFree)

/-- The first index among some elements has a section that imports something. -/
def Element.FirstImports (es : List Element) : Prop :=
  ∃ index ∈ (sectionIndexes es).head?, ∃ s ∈ index.sections, s.hasImports

open Element (FirstImports)

/-- What is selected from a parse, or why nothing is. -/
inductive Selects (es : List Element) : Except CodecError Element → Prop
  /-- The only declaration, wherever it stands. -/
  | content {d : Declaration} (hone : declarations es = [d])
      (hindexes : (sectionIndexes es).length ≤ 1) (himports : ImportFree es) :
      Selects es (.ok (.declaration d))
  /-- A pair with an import in its first index. -/
  | imports (hpair : es.length = 2) (himports : FirstImports es) :
      Selects es (.error .importsUnsupported)
  /-- No declaration, and no more than two indexes. -/
  | nothing (hnone : declarations es = []) (hfew : es.length ≤ 2)
      (himports : ¬ (es.length = 2 ∧ FirstImports es)) :
      Selects es (.error .noContentFound)
  /-- More than two elements, and several of them indexes. -/
  | ambiguous (hmany : 3 ≤ es.length) (hindexes : 2 ≤ (sectionIndexes es).length) :
      Selects es (.error (.ambiguousMetadata (sectionIndexes es).length))
  /-- Several declarations, beside one index at most. -/
  | surplus (hcontent : 2 ≤ (declarations es).length) (hindexes : (sectionIndexes es).length ≤ 1) :
      Selects es (.error (.tooManyContentElements (declarations es).length))

variable {es : List Element}

/-! ### Every parse has an answer -/

/-- Where there is one index at most, nothing is imported unless the first index imports something. -/
theorem Element.importFree_of_first (hindexes : (sectionIndexes es).length ≤ 1)
    (h : ¬ FirstImports es) : ImportFree es := by
  intro index hindex s hs himports
  refine h ⟨index, ?_, s, hs, himports⟩
  cases hes : sectionIndexes es with
  | nil =>
    rw [hes] at hindex
    cases hindex
  | cons first rest =>
    rw [hes] at hindex hindexes
    obtain rfl : rest = [] := List.length_eq_zero_iff.mp (by simpa using hindexes)
    exact congrArg some (List.mem_singleton.mp hindex).symm

/-- Without an index there is no first one. -/
theorem Element.not_firstImports_of_none (h : (sectionIndexes es).length = 0) :
    ¬ FirstImports es := by
  rintro ⟨index, hindex, -⟩
  rw [List.length_eq_zero_iff.mp h] at hindex
  cases hindex

/-- One row of the table applies to a parse. -/
theorem exists_selects (es : List Element) : ∃ answer, Selects es answer := by
  have hlength := Element.length_eq es
  by_cases hmany : 3 ≤ es.length
  · by_cases hindexes : 2 ≤ (sectionIndexes es).length
    · exact ⟨_, .ambiguous hmany hindexes⟩
    · exact ⟨_, .surplus (by omega) (by omega)⟩
  · by_cases himports : es.length = 2 ∧ FirstImports es
    · exact ⟨_, .imports himports.1 himports.2⟩
    · -- Up to two elements, and no import that would be looked at: the declarations decide.
      cases hcontent : declarations es with
      | nil => exact ⟨_, .nothing hcontent (by omega) himports⟩
      | cons d ds =>
        rw [hcontent, List.length_cons] at hlength
        cases ds with
        | nil =>
          rw [List.length_nil] at hlength
          have hfirst : ¬ FirstImports es := by
            by_cases hnone : (sectionIndexes es).length = 0
            · exact Element.not_firstImports_of_none hnone
            · exact fun h => himports ⟨by omega, h⟩
          exact ⟨_, .content hcontent (by omega) (Element.importFree_of_first (by omega) hfirst)⟩
        | cons d' ds =>
          rw [List.length_cons] at hlength
          refine ⟨_, .surplus ?_ (by omega)⟩
          rw [hcontent, List.length_cons, List.length_cons]
          omega

/-! ### The answer of each row -/

/-- An index with imports is refused. -/
theorem checkIndex_of_imports {index : SectionIndex} (h : ∃ s ∈ index.sections, s.hasImports) :
    checkIndex index = .error .importsUnsupported := by
  unfold checkIndex
  rw [if_pos (List.any_eq_true.mpr h)]

/-- A pair of which the first index imports something is refused for that. -/
theorem classify_of_firstImports (hpair : es.length = 2) (himports : FirstImports es) :
    classify es = .error .importsUnsupported := by
  obtain ⟨a, b, rfl⟩ := List.length_eq_two.mp hpair
  obtain ⟨index, hindex, h⟩ := himports
  have hcheck := checkIndex_of_imports h
  -- The index is the first element, or the second behind a declaration.
  cases a with
  | sectionIndex first =>
    obtain rfl : first = index := Option.some.inj hindex
    show (checkIndex first >>= _) = _
    rw [hcheck]
    rfl
  | declaration d =>
    cases b with
    | sectionIndex first =>
      obtain rfl : first = index := Option.some.inj hindex
      show (checkIndex first >>= _) = _
      rw [hcheck]
      rfl
    | declaration d' => cases hindex

/-- No more than two indexes, of which the first imports nothing, are no content. -/
theorem classify_of_no_content (hnone : declarations es = []) (hfew : es.length ≤ 2)
    (himports : ¬ (es.length = 2 ∧ FirstImports es)) : classify es = .error .noContentFound := by
  -- No element, one, or two: the two are both indexes then.
  obtain _ | ⟨a, _ | ⟨b, _ | ⟨c, es⟩⟩⟩ := es
  · rfl
  · cases a with
    | declaration d => cases hnone
    | sectionIndex index => rfl
  · cases a with
    | declaration d => cases hnone
    | sectionIndex index =>
      cases b with
      | declaration d => cases hnone
      | sectionIndex index' =>
        have hcheck : checkIndex index = .ok () :=
          checkIndex_eq_ok.mpr fun s hs h => himports ⟨rfl, index, rfl, s, hs, h⟩
        show (checkIndex index >>= _) = _
        rw [hcheck]
        rfl
  · simp at hfew

/-- Several declarations beside one index at most are too many, whatever the index imports. -/
theorem classify_of_surplus (hcontent : 2 ≤ (declarations es).length)
    (hindexes : (sectionIndexes es).length ≤ 1) :
    classify es = .error (.tooManyContentElements (declarations es).length) := by
  by_cases hlong : 2 < es.length
  · rw [classify_of_two_lt hlong, if_neg (by omega)]
  · -- An index would be a third element, so there are just two declarations.
    have hlength := Element.length_eq es
    obtain ⟨a, b, rfl⟩ := List.length_eq_two.mp (show es.length = 2 by omega)
    have hnone : sectionIndexes [a, b] = [] := List.length_eq_zero_iff.mp (by omega)
    cases a with
    | sectionIndex index => cases hnone
    | declaration d =>
      cases b with
      | sectionIndex index => cases hnone
      | declaration d' => rfl

/-- The row of a list is how it is classified. -/
theorem Selects.classify_eq {answer : Except CodecError Element} (h : Selects es answer) :
    classify es = answer := by
  -- Row by row.
  cases h with
  | content hone hindexes himports =>
    exact classify_eq_ok.mpr ⟨_, rfl, hone, hindexes, himports⟩
  | imports hpair himports => exact classify_of_firstImports hpair himports
  | nothing hnone hfew himports => exact classify_of_no_content hnone hfew himports
  | ambiguous hmany hindexes => exact (classify_of_two_lt hmany).trans (if_pos hindexes)
  | surplus hcontent hindexes => exact classify_of_surplus hcontent hindexes

/-- **The table.** An answer is given exactly if its row applies. -/
theorem classify_eq_iff {answer : Except CodecError Element} :
    classify es = answer ↔ Selects es answer := by
  refine ⟨fun h => ?_, Selects.classify_eq⟩
  obtain ⟨answer', hselects⟩ := exists_selects es
  rwa [← h, hselects.classify_eq]

/-! ### Answers by counts -/

/-- Since each list has one row, each answer has the condition of its own. -/
theorem classify_eq_importsUnsupported :
    classify es = .error .importsUnsupported ↔ es.length = 2 ∧ FirstImports es := by
  rw [classify_eq_iff]
  refine ⟨fun h => ?_, fun h => .imports h.1 h.2⟩
  cases h with
  | imports hpair himports => exact ⟨hpair, himports⟩

/-- That there is no content is said only of two elements or fewer. -/
theorem classify_eq_noContentFound :
    classify es = .error .noContentFound ↔
      declarations es = [] ∧ es.length ≤ 2 ∧ ¬ (es.length = 2 ∧ FirstImports es) := by
  rw [classify_eq_iff]
  refine ⟨fun h => ?_, fun h => .nothing h.1 h.2.1 h.2.2⟩
  cases h with
  | nothing hnone hfew himports => exact ⟨hnone, hfew, himports⟩

/-- From three elements on, two indexes are ambiguous, whatever else there is. -/
theorem classify_eq_ambiguousMetadata {found : Nat} :
    classify es = .error (.ambiguousMetadata found) ↔
      3 ≤ es.length ∧ 2 ≤ (sectionIndexes es).length ∧ found = (sectionIndexes es).length := by
  rw [classify_eq_iff]
  constructor
  · intro h
    cases h with
    | ambiguous hmany hindexes => exact ⟨hmany, hindexes, rfl⟩
  · rintro ⟨hmany, hindexes, rfl⟩
    exact .ambiguous hmany hindexes

/-- Two declarations are too many, unless the indexes are ambiguous. -/
theorem classify_eq_tooManyContentElements {found : Nat} :
    classify es = .error (.tooManyContentElements found) ↔
      2 ≤ (declarations es).length ∧ (sectionIndexes es).length ≤ 1 ∧
        found = (declarations es).length := by
  rw [classify_eq_iff]
  constructor
  · intro h
    cases h with
    | surplus hcontent hindexes => exact ⟨hcontent, hindexes, rfl⟩
  · rintro ⟨hcontent, hindexes, rfl⟩
    exact .surplus hcontent hindexes

/-- There are no other errors. -/
theorem classify_eq_error {error : CodecError} (h : classify es = .error error) :
    error = .importsUnsupported ∨ error = .noContentFound ∨
      (∃ found, error = .ambiguousMetadata found) ∨
      ∃ found, error = .tooManyContentElements found := by
  cases classify_eq_iff.mp h with
  | imports hpair himports => exact .inl rfl
  | nothing hnone hfew himports => exact .inr (.inl rfl)
  | ambiguous hmany hindexes => exact .inr (.inr (.inl ⟨_, rfl⟩))
  | surplus hcontent hindexes => exact .inr (.inr (.inr ⟨_, rfl⟩))

/-- **Selecting by counts.** Of a parse with `total` elements, `indexes` of them indexes and the others
`content`, the one declaration is selected exactly if it is the only one, there is one index at most and no
index imports anything. Imports are reported exactly of a pair whose first index imports something. A parse
has no content exactly if it has no declaration and at most two elements, unless they are such a pair. It
is ambiguous exactly if it has more than two elements and several indexes, and has too many declarations
exactly if it has several of them, one index at most, and more than two elements or no index. There is no
other error. -/
theorem classify_by_counts (es : List Element) :
    let total := es.length
    let indexes := (sectionIndexes es).length
    let content := total - indexes
    (∀ element, classify es = .ok element ↔
      content = 1 ∧ indexes ≤ 1 ∧ ImportFree es ∧
        ∃ d, element = .declaration d ∧ declarations es = [d]) ∧
    (classify es = .error .importsUnsupported ↔
      total = 2 ∧ 1 ≤ indexes ∧ FirstImports es) ∧
    (classify es = .error .noContentFound ↔
      content = 0 ∧ total ≤ 2 ∧ ¬ (total = 2 ∧ 1 ≤ indexes ∧ FirstImports es)) ∧
    (∀ found, classify es = .error (.ambiguousMetadata found) ↔
      3 ≤ total ∧ 2 ≤ indexes ∧ found = indexes) ∧
    (∀ found, classify es = .error (.tooManyContentElements found) ↔
      2 ≤ content ∧ indexes ≤ 1 ∧ (3 ≤ total ∨ indexes = 0) ∧ found = content) ∧
    ∀ error, classify es = .error error → error = .importsUnsupported ∨ error = .noContentFound ∨
      (∃ found, error = .ambiguousMetadata found) ∨ ∃ found, error = .tooManyContentElements found := by
  intro total indexes content
  have hlength : total = (declarations es).length + indexes := Element.length_eq es
  have hcontent : content = (declarations es).length := by omega
  have hpair : total = 2 ∧ 1 ≤ indexes ∧ FirstImports es ↔ total = 2 ∧ FirstImports es := by
    refine and_congr_right fun _ => and_iff_right_of_imp fun h => ?_
    exact Nat.pos_of_ne_zero fun hnone => Element.not_firstImports_of_none hnone h
  rw [hpair, hcontent]
  refine ⟨fun element => classify_eq_ok.trans ⟨?_, ?_⟩, classify_eq_importsUnsupported, ?_,
    fun found => classify_eq_ambiguousMetadata, fun found => ?_, fun error => classify_eq_error⟩
  · rintro ⟨d, rfl, hone, hindexes, himports⟩
    exact ⟨congrArg List.length hone, hindexes, himports, d, rfl, hone⟩
  · rintro ⟨-, hindexes, himports, d, rfl, hone⟩
    exact ⟨d, rfl, hone, hindexes, himports⟩
  · rw [classify_eq_noContentFound, List.length_eq_zero_iff]
  · -- Several declarations and one index at most: three elements, unless there is no index.
    rw [classify_eq_tooManyContentElements]
    constructor
    · rintro ⟨hsurplus, hindexes, hfound⟩
      exact ⟨hsurplus, hindexes, by omega, hfound⟩
    · rintro ⟨hsurplus, hindexes, -, hfound⟩
      exact ⟨hsurplus, hindexes, hfound⟩

/-- An import is noticed in front of an index, missed behind one, and does not matter beside two
declarations. -/
theorem classify_by_counts_imports :
    let index : SectionIndex := { sections := [] }
    let importing : SectionIndex :=
      { sections := [{ parserName := "Pure", elements := [], kind := .importAware ["a"] }] }
    let content : Declaration := { kind := "Data", path := "a::B", body := Json.Object.empty }
    classify [.sectionIndex importing, .sectionIndex index] = .error .importsUnsupported ∧
      classify [.sectionIndex index, .sectionIndex importing] = .error .noContentFound ∧
      classify [.declaration content, .sectionIndex importing, .declaration content] =
        .error (.tooManyContentElements 2) := by
  intro index importing content
  have himporting : ∃ s ∈ importing.sections, s.hasImports := ⟨_, List.mem_singleton_self _, rfl⟩
  have hfirst : ¬ FirstImports [.sectionIndex index, .sectionIndex importing] := by
    rintro ⟨_, ⟨⟩, s, hs, -⟩
    cases hs
  obtain ⟨-, himports, -⟩ := classify_by_counts [.sectionIndex importing, .sectionIndex index]
  obtain ⟨-, -, hnothing, -⟩ := classify_by_counts [.sectionIndex index, .sectionIndex importing]
  obtain ⟨-, -, -, -, hsurplus, -⟩ :=
    classify_by_counts [.declaration content, .sectionIndex importing, .declaration content]
  refine ⟨himports.mpr ⟨rfl, by decide, importing, rfl, himporting⟩, ?_, ?_⟩
  · exact hnothing.mpr ⟨rfl, Nat.le_refl 2, fun h => hfirst h.2.2⟩
  · exact (hsurplus 2).mpr ⟨by decide, by decide, .inl (by decide), rfl⟩

end ModelText
