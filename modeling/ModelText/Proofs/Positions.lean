import Mathlib.Data.List.DropRight
import Mathlib.Data.Prod.Lex
import ModelText.Element

/-!
# Positions and the text between them

A position says where a suffix of a text begins. Positions are ordered by their lines and then by their
columns, and the shorter a suffix is, the later it begins (`Position.of_le_of`, `Position.of_lt_of`). A
position can be turned back into the suffix by going over lines and then over characters
(`Position.restOf_of`), so the text between two positions can be cut out (`Span.cut_of`).
-/

namespace ModelText

namespace Position

/-! ### Counting -/

/-- A position tells the lines that have ended and the characters since the last of them, so it can be
counted from behind. -/
theorem after_reverse (back : List Char) :
    after back.reverse = ⟨back.count '\n' + 1, (back.takeWhile (· != '\n')).length + 1⟩ := by
  -- By induction on what has been read, from the end of the text: the last character ends a line or makes
  -- it longer.
  induction back with
  | nil => rfl
  | cons c back ih =>
    rw [List.reverse_cons, after_append_singleton, ih, advance]
    by_cases hc : c = '\n'
    · simp [hc]
    · simp [hc]

/-- A position counts the ends of lines in front of it, and the characters since the last one. -/
theorem after_eq (read : List Char) :
    after read = ⟨read.count '\n' + 1, (read.reverse.takeWhile (· != '\n')).length + 1⟩ := by
  have h := after_reverse read.reverse
  rwa [List.reverse_reverse, List.count_reverse] at h

/-! ### Order -/

/-- Positions in the order of a text: by lines, and in a line by columns. -/
instance : LinearOrder Position :=
  LinearOrder.lift' (fun p => toLex (p.line, p.column)) (by
    rintro ⟨line, column⟩ ⟨line', column'⟩ h
    cases h
    rfl)

/-- One position is before another in an earlier line, or in the same line and further left. -/
theorem lt_iff {p q : Position} :
    p < q ↔ p.line < q.line ∨ p.line = q.line ∧ p.column < q.column :=
  Prod.Lex.lt_iff

/-- Every character moves on. -/
theorem lt_advance (p : Position) (c : Char) : p < p.advance c := by
  rw [lt_iff, advance]
  split
  · exact .inl (Nat.lt_succ_self _)
  · exact .inr ⟨rfl, Nat.lt_succ_self _⟩

/-- Reading on does not lead back. -/
theorem after_le_append (read more : List Char) : after read ≤ after (read ++ more) := by
  -- By induction on the characters read after, from the last one back.
  induction more using List.reverseRecOn with
  | nil => rw [List.append_nil]
  | append_singleton more c ih =>
    rw [← List.append_assoc, after_append_singleton]
    exact ih.trans (lt_advance _ c).le

/-- Reading on by a character or more leads further. -/
theorem after_lt_append (read : List Char) {more : List Char} (h : more ≠ []) :
    after read < after (read ++ more) := by
  obtain ⟨front, c, rfl⟩ := (List.eq_nil_or_concat' more).resolve_left h
  rw [← List.append_assoc, after_append_singleton]
  exact (after_le_append read front).trans_lt (lt_advance _ c)

section Suffixes

variable {text cs rest : List Char}

/-- A suffix of a suffix begins later. -/
theorem of_le_of (hcs : cs <:+ text) (hrest : rest <:+ cs) : of text cs ≤ of text rest := by
  obtain ⟨read, rfl⟩ := hcs
  obtain ⟨more, rfl⟩ := hrest
  rw [of_append, ← List.append_assoc, of_append]
  exact after_le_append read more

/-- So of two places in a text, the one behind is further. -/
theorem of_lt_of (hcs : cs <:+ text) {more : List Char} (hrest : cs = more ++ rest)
    (hmore : more ≠ []) : of text cs < of text rest := by
  obtain ⟨read, rfl⟩ := hcs
  -- Both positions are told by what has been read up to there.
  rw [of_append, hrest, ← List.append_assoc, of_append]
  exact after_lt_append read hmore

end Suffixes

/-! ### The text from a position on -/

/-- What comes after the end of the first line. -/
def afterLine (cs : List Char) : List Char :=
  (cs.dropWhile (· != '\n')).drop 1

/-- The text from a position on: its line without the columns in front. -/
def restOf (p : Position) (text : List Char) : List Char :=
  (afterLine^[p.line - 1] text).drop (p.column - 1)

/-- A line is left with its end. -/
theorem afterLine_append {line : List Char} (h : ∀ c ∈ line, c ≠ '\n') (rest : List Char) :
    afterLine (line ++ '\n' :: rest) = rest := by
  have hline : ∀ c ∈ line, (c != '\n') = true := fun c hc => bne_iff_ne.mpr (h c hc)
  unfold afterLine
  rw [List.dropWhile_append_of_pos hline]
  rfl

/-- The characters of the last line end no line. -/
theorem ne_of_mem_rtakeWhile (read : List Char) :
    ∀ c ∈ read.rtakeWhile (· != '\n'), c ≠ '\n' := by
  intro c hc
  have hne : (c != '\n') = true := List.mem_rtakeWhile_imp (p := (· != '\n')) hc
  exact bne_iff_ne.mp hne

/-- After the lines that end in what has been read comes what has been read of the last one. -/
theorem afterLine_iterate_count (read rest : List Char) :
    afterLine^[read.count '\n'] (read ++ rest) = read.rtakeWhile (· != '\n') ++ rest := by
  -- By induction on the characters read, from the last one back, for any text after them.
  induction read using List.reverseRecOn generalizing rest with
  | nil => rfl
  | append_singleton read c ih =>
    have hread : read ++ [c] ++ rest = read ++ c :: rest := List.append_cons read c rest |>.symm
    rw [hread, List.count_append]
    by_cases hc : c = '\n'
    · subst hc
      rw [List.count_singleton_self, Function.iterate_succ_apply', ih,
        afterLine_append (ne_of_mem_rtakeWhile read), List.rtakeWhile_concat_neg _ _ _ (by decide)]
      rfl
    · rw [List.count_singleton, if_neg (by simpa using hc), Nat.add_zero, ih,
        List.rtakeWhile_concat_pos _ _ _ (by simpa using hc), List.append_assoc]
      rfl

/-- The position where a suffix begins leads back to the suffix. -/
theorem restOf_of {text rest : List Char} (h : rest <:+ text) : (of text rest).restOf text = rest := by
  obtain ⟨read, rfl⟩ := h
  have hlength : (read.reverse.takeWhile (· != '\n')).length =
      (read.rtakeWhile (· != '\n')).length := (List.length_reverse).symm
  rw [of_append, after_eq, restOf]
  dsimp only
  rw [Nat.add_sub_cancel, Nat.add_sub_cancel, afterLine_iterate_count, hlength, List.drop_left]

/-- Characters are counted, whatever their bytes, and lines end with a line feed. -/
example : restOf ⟨2, 2⟩ ['é', '\r', '\n', 'ü', 'c'] = ['c'] := by decide

end Position

/-! ### Spans -/

namespace Span

/-- The text of a span. -/
def cut (span : Span) (text : String) : String :=
  let rest := span.start.restOf text.toList
  String.ofList (rest.take (rest.length - (span.stop.restOf text.toList).length))

/-- What is cut out is what stands between the two places. -/
theorem cut_of {text : String} {start stop piece : List Char} (hstart : start <:+ text.toList)
    (hpiece : start = piece ++ stop) :
    cut ⟨.of text.toList start, .of text.toList stop⟩ text = String.ofList piece := by
  have hstop : stop <:+ text.toList := List.IsSuffix.trans ⟨piece, hpiece.symm⟩ hstart
  have hlength : start.length - stop.length = piece.length := by
    rw [hpiece, List.length_append, Nat.add_sub_cancel]
  unfold cut
  dsimp only
  rw [Position.restOf_of hstart, Position.restOf_of hstop, hlength, hpiece, List.take_left]

/-- A span lies inside another one. -/
def Within (span outer : Span) : Prop :=
  outer.start ≤ span.start ∧ span.stop ≤ outer.stop

end Span

end ModelText
