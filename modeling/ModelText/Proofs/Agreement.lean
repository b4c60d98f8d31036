import ModelText.Proofs.Brackets
import ModelText.Proofs.Descent
import ModelText.Proofs.Insertion
import ModelText.Proofs.Positions
import ModelText.Proofs.Unchecked

/-!
# The scan agrees with the grammar

A text is scanned for brackets before the descent goes over it, by a scan that knows nothing of the
grammar. That the two agree has three sides. On every text that the scan lets pass, the descent stays
within the limit wherever it goes, and decoding need not check it again. On every document, the scan
refuses what nests too deep and nothing else, at the first bracket that does. And on every text at all,
the scan counts the brackets in code, while strings and comments hide theirs
(`scan_agrees_with_grammar`).
-/

namespace ModelText

namespace Grammar

/-! ### What the scan says -/

/-- The scan lets a text pass if it finds nothing too deep. -/
theorem checkNesting_eq_ok {text : List Char} :
    checkNesting text = .ok () ↔ firstTooDeep maxDepth text = none := by
  unfold checkNesting
  cases firstTooDeep maxDepth text <;> simp

/-- Otherwise it names the position of what it has found. -/
theorem checkNesting_eq_error {text : List Char} {error : GrammarError} :
    checkNesting text = .error error ↔ ∃ rest, firstTooDeep maxDepth text = some rest ∧
      error = .parse (.nestedTooDeep maxDepth) (Position.of text rest) := by
  unfold checkNesting
  cases firstTooDeep maxDepth text <;> simp [eq_comm]

/-- It does one or the other. -/
theorem exists_error_iff {text : List Char} :
    (∃ error, checkNesting text = .error error) ↔ ¬ checkNesting text = .ok () := by
  cases checkNesting text <;> simp

/-- On documents the scan lets pass exactly those whose bodies stay within the limit. -/
theorem checkNesting_eq_ok_iff_depth {text : List Char} {d : Document}
    (h : Document.read text = .ok d) :
    checkNesting text = .ok () ↔ ∀ e ∈ d.entries, e.tree.depth ≤ maxDepth := by
  obtain ⟨hderives, -⟩ := Document.read_sound h
  rw [checkNesting_eq_ok, hderives.firstTooDeep_eq_none_iff, Document.tree_entries,
    List.forall_mem_map]

/-- On documents the scan stops at the first bracket that opens a level beyond the limit. -/
theorem exists_firstBeyond_of_checkNesting {text : List Char} {d : Document} {error : GrammarError}
    (h : Document.read text = .ok d) (herror : checkNesting text = .error error) :
    ∃ front c rest, text = front ++ c :: rest ∧
      FirstBeyond maxDepth 0 text d.tree.tokens c rest ∧
      error = .parse (.nestedTooDeep maxDepth)
        ⟨front.count '\n' + 1, (front.reverse.takeWhile (· != '\n')).length + 1⟩ := by
  obtain ⟨hderives, -⟩ := Document.read_sound h
  obtain ⟨found, hfound, rfl⟩ := checkNesting_eq_error.mp herror
  obtain ⟨c, rest, rfl, hfirst⟩ := hderives.lexes.exists_firstBeyond (Nat.zero_le _) hfound
  have ⟨_, _, mid, _, _, hscans, hskip, _, _⟩ := hfirst
  obtain ⟨front, hfront⟩ := hscans.exists_append
  obtain ⟨gap, hgap⟩ := (gap_skip mid).exists_append
  rw [hskip] at hgap
  -- The position is counted over the tokens in front of the bracket and the gap behind them.
  refine ⟨front ++ gap, c, rest, ?_, hfirst, ?_⟩
  · rw [hfront, hgap, List.append_assoc]
  · rw [hfront, hgap, ← List.append_assoc, Position.of_append, Position.after_eq]

/-- Checking the nesting while decoding changes nothing after the scan. -/
theorem parse_eq_unchecked (text : String) (keepSource : Bool) :
    parse text keepSource = parseUnchecked text keepSource := by
  rw [parse, parseUnchecked]
  cases hscan : checkNesting text.toList with
  | error e => rfl
  | ok _ =>
    cases hread : Document.read text.toList with
    | error e => rfl
    | ok d => exact d.elements_eq_unchecked ((checkNesting_eq_ok_iff_depth hread).mp hscan) keepSource

/-! ### Agreement -/

/-- **The scan agrees with the grammar.** If the scan lets a text pass, document or not, then wherever
the descent looks at most `maxDepth` containers are open, and the scan goes on from there with as many;
the check while decoding never fails, and without it every text is parsed as with it. If a text is a
document, the scan lets it pass exactly if no body nests too deep, and otherwise reports the line and
column of the first bracket that does. Of any text the scan sees nothing but the brackets in code. -/
theorem scan_agrees_with_grammar (text : String) (keepSource : Bool) :
    Walk.document.phrase = Phrase.document ∧
    (checkNesting text.toList = .ok () →
      (∀ place ∈ Walk.document.places 0 text.toList,
        place.opened ≤ maxDepth ∧ Clear maxDepth place.opened place.rest) ∧
      ∀ d, Document.read text.toList = .ok d → NeverTooDeep (d.elements text.toList keepSource)) ∧
    parse text keepSource = parseUnchecked text keepSource ∧
    (∀ d, Document.read text.toList = .ok d →
      ((∃ error, checkNesting text.toList = .error error) ↔
        ∃ e ∈ d.entries, maxDepth < e.tree.depth) ∧
      ∀ error, checkNesting text.toList = .error error → ∃ front c rest,
        text.toList = front ++ c :: rest ∧
        FirstBeyond maxDepth 0 text.toList d.tree.tokens c rest ∧
        error = .parse (.nestedTooDeep maxDepth)
          ⟨front.count '\n' + 1, (front.reverse.takeWhile (· != '\n')).length + 1⟩) ∧
    (∃! code, Code text.toList code) ∧
    ∀ code, Code text.toList code →
      ∀ limit, firstTooDeep limit text.toList = firstOver limit 0 code := by
  refine ⟨Walk.phrase_document, fun hscan => ⟨?_, fun d hread => ?_⟩, parse_eq_unchecked text keepSource,
    fun d hread => ⟨?_, fun error herror => exists_firstBeyond_of_checkNesting hread herror⟩,
    existsUnique_code text.toList, fun code hcode limit => hcode.tooDeep?_eq (Nat.zero_le limit)⟩
  · -- A text that passes is clear from its beginning, and the walk keeps that.
    exact Walk.seen_of_clear (checkNesting_eq_ok.mp hscan)
  · rw [d.elements_eq_unchecked ((checkNesting_eq_ok_iff_depth hread).mp hscan) keepSource]
    exact d.elementsUnchecked_neverTooDeep keepSource
  · rw [exists_error_iff, checkNesting_eq_ok_iff_depth hread]
    simp only [not_forall, Nat.not_le, exists_prop]

/-- That a text is read can be evaluated. -/
theorem exists_read_of_isOk {text : List Char} (h : (Document.read text).isOk) :
    ∃ d, Document.read text = .ok d := by
  cases hread : Document.read text with
  | error e =>
    rw [hread] at h
    cases h
  | ok d => exact ⟨d, rfl⟩

/-- A document with brackets in a string and in comments, one whose body nests 129 levels, and a text
that is no document: of its brackets the first is in a string after an escaped quote, and the last in a
block comment that its own star does not close. -/
theorem scan_agrees_with_grammar_cases :
    let shallow := "Data a::b\x7b\"\\\"[/*\": [] /*/[*/ // [\n\x7d"
    let deep := String.ofList ("Data a::b\x7b\"x\":".toList ++ List.replicate 128 '[' ++
      List.replicate 128 ']' ++ ['\x7d'])
    let hidden := "\"\\\"[\"[/*/["
    (∃ d, checkNesting shallow.toList = .ok () ∧ Document.read shallow.toList = .ok d ∧
      (∀ place ∈ Walk.document.places 0 shallow.toList,
        place.opened ≤ maxDepth ∧ Clear maxDepth place.opened place.rest) ∧
      NeverTooDeep (d.elements shallow.toList true)) ∧
    (∃ d error, Document.read deep.toList = .ok d ∧ checkNesting deep.toList = .error error ∧
      (∃ e ∈ d.entries, maxDepth < e.tree.depth) ∧
      ∃ front c rest, deep.toList = front ++ c :: rest ∧
        FirstBeyond maxDepth 0 deep.toList d.tree.tokens c rest ∧
        error = .parse (.nestedTooDeep maxDepth)
          ⟨front.count '\n' + 1, (front.reverse.takeWhile (· != '\n')).length + 1⟩) ∧
    Code hidden.toList [('[', "/*/[".toList)] ∧
      firstTooDeep 0 hidden.toList = some "[/*/[".toList := by
  intro shallow deep hidden
  refine ⟨?_, ?_, ?_⟩
  · have hscan : checkNesting shallow.toList = .ok () :=
      checkNesting_eq_ok.mpr (by decide +kernel)
    have hisOk : (Document.read shallow.toList).isOk := by decide +kernel
    obtain ⟨d, hread⟩ := exists_read_of_isOk hisOk
    obtain ⟨-, hpass, -⟩ := scan_agrees_with_grammar shallow true
    obtain ⟨hplaces, hdecode⟩ := hpass hscan
    exact ⟨d, hscan, hread, hplaces, hdecode d hread⟩
  · have hdeep : firstTooDeep maxDepth deep.toList ≠ none ∧ (Document.read deep.toList).isOk := by
      rw [String.toList_ofList]
      decide +kernel
    obtain ⟨d, hread⟩ := exists_read_of_isOk hdeep.2
    obtain ⟨error, herror⟩ := exists_error_iff.mpr fun hscan => hdeep.1 (checkNesting_eq_ok.mp hscan)
    obtain ⟨-, -, -, hdocument, -⟩ := scan_agrees_with_grammar deep true
    obtain ⟨hrefused, hfirst⟩ := hdocument d hread
    exact ⟨d, error, hread, herror, hrefused.mp ⟨error, herror⟩, hfirst error herror⟩
  · have hcode : Code hidden.toList [('[', "/*/[".toList)] := by
      have hquoted : Quoted ['\\', '"', '['] := .escape '"' (.plain (by decide) (by decide) .nil)
      have hblock : Code "/*/[".toList [] := .openBlock (by decide)
      have hbracket : Code "[/*/[".toList [('[', "/*/[".toList)] :=
        .char (by decide) (noComment_of_ne (by decide) _) hblock
      have htext : hidden.toList = '"' :: (['\\', '"', '['] ++ '"' :: "[/*/[".toList) := by decide
      rw [htext]
      exact .string hquoted hbracket
    obtain ⟨-, -, -, -, -, hcount⟩ := scan_agrees_with_grammar hidden true
    exact ⟨hcode, hcount _ hcode 0⟩

end Grammar

end ModelText
