import ModelText.Proofs.Phrase

/-!
# Values are read along their derivations

A value that is read has the tokens that the text begins with (`Phrase.value_sound`), and a text that
begins with the tokens of a value is read as that value if the nesting allows it
(`Phrase.value_complete`). Only a literal word needs to know what comes after it: it is spelled like a
name, so it is a token only where no name goes on.
-/

namespace ModelText.Grammar

namespace Phrase

/-! ### Scalars -/

/-- A scalar keeps the characters that its lexer takes, and the place where they begin. -/
theorem result_scalar_eq_some {r : Rule} {l : Lexeme} {cs rest : List Char} {s : Scalar} :
    (scalar r l cs).result = some (s, rest) ↔ l cs = some (s.raw, rest) ∧ s.start = cs := by
  rw [scalar, result_rule, result_bind_of_eq (result_here cs), result_bind_eq_some]
  constructor
  · rintro ⟨raw, mid, hraw, h⟩
    cases h
    exact ⟨hraw, rfl⟩
  · rintro ⟨hraw, rfl⟩
    exact ⟨s.raw, rest, hraw, rfl⟩

/-- The same of a scalar that stands as a value. -/
theorem result_scalarValue_eq_some {r : Rule} {l : Lexeme} {cs rest : List Char} {v : Literal} :
    (scalarValue r l cs).result = some (v, rest) ↔
      ∃ raw, l cs = some (raw, rest) ∧ v = .scalar ⟨raw, cs⟩ := by
  rw [scalarValue, result_bind_eq_some]
  constructor
  · rintro ⟨s, mid, hs, h⟩
    cases h
    obtain ⟨hraw, hstart⟩ := result_scalar_eq_some.mp hs
    exact ⟨s.raw, hraw, by rw [← hstart]⟩
  · rintro ⟨raw, hraw, rfl⟩
    exact ⟨⟨raw, cs⟩, rest, result_scalar_eq_some.mpr ⟨hraw, rfl⟩, rfl⟩

/-- Where the lexer finds nothing, no such value is there. -/
theorem result_scalarValue_eq_none {r : Rule} {l : Lexeme} {cs : List Char} (h : l cs = none) :
    (scalarValue r l cs).result = none := by
  -- A value found there would be one that the lexer has found.
  rw [Option.eq_none_iff_forall_ne_some]
  rintro ⟨v, rest⟩ hv
  obtain ⟨raw, hraw, -⟩ := result_scalarValue_eq_some.mp hv
  rw [h] at hraw
  cases hraw

/-! ### Values -/

/-- An inner character of a name also begins a token: a name, or a number if it is a digit. So it cannot
be one of the marks that close a value. -/
theorem classOf?_of_isInner {c : Char} (h : Path.isInner c) :
    classOf? c = some .name ∨ classOf? c = some .number := by
  simp only [Path.isInner, Char.isAlphanum, Bool.or_eq_true, beq_iff_eq] at h
  -- A letter, a digit or an underscore.
  rcases h with (h | h) | rfl
  · exact .inl (classOf?_of_isInitial (by simp [Path.isInitial, h]))
  · exact .inr (classOf?_of_isDigit (.inr h))
  · exact .inl rfl

/-- What ends a value does not go on with a name. -/
theorem Closes.head {rest : List Char} (h : Closes rest) :
    ∀ c ∈ rest.head?, ¬ Path.isInner c ∧ c ≠ ':' := by
  obtain ⟨d, r, hskip, hd⟩ := h
  intro c hc
  obtain ⟨cs, rfl⟩ : ∃ cs, rest = c :: cs := List.head?_eq_some_iff.mp hc
  -- A character that could begin a token would be the one that ends the value.
  have hclass : ∀ k, classOf? c = some k → c = d := by
    intro k hk
    rw [skip_cons_of_classOf? hk] at hskip
    exact (List.cons.inj hskip).1
  refine ⟨fun hinner => ?_, ?_⟩
  · have hcd : c = d := by
      rcases classOf?_of_isInner hinner with h | h
      · exact hclass _ h
      · exact hclass _ h
    rw [hcd] at hinner
    rcases hd with rfl | rfl | rfl <;> exact absurd hinner (by decide)
  · rintro rfl
    have hcd := hclass .mark rfl
    rcases hd with rfl | rfl | rfl <;> exact absurd hcd (by decide)

/-- What is read as a truth value is one of the literal words. -/
theorem boolLiteral_eq_some {cs w rest : List Char} (h : boolLiteral cs = some (w, rest)) :
    w ∈ literalWords ∧ cs = w ++ rest := by
  unfold boolLiteral at h
  -- The word for true is tried first.
  split at h
  · next found hfound =>
    obtain rfl := Option.some.inj h
    obtain ⟨rfl, hcs⟩ := exactly_eq_some_iff.mp hfound
    exact ⟨by decide, hcs⟩
  · obtain ⟨rfl, hcs⟩ := exactly_eq_some_iff.mp h
    exact ⟨by decide, hcs⟩

/-- What is read as null is one, too. -/
theorem nullLiteral_eq_some {cs w rest : List Char} (h : nullLiteral cs = some (w, rest)) :
    w ∈ literalWords ∧ cs = w ++ rest := by
  obtain ⟨rfl, hcs⟩ := exactly_eq_some_iff.mp h
  exact ⟨by decide, hcs⟩

/-- The tree of a scalar is told by its first character. A string begins with a quote. -/
theorem tree_of_isString {w start : List Char} (h : IsString w) :
    Scalar.tree ⟨w, start⟩ = .string w := by
  obtain ⟨body, -, rfl⟩ := h
  rfl

/-- A number begins with a digit or a minus sign, which neither a string nor a name does. -/
theorem tree_of_isNumber {w start : List Char} (h : IsNumber w) :
    Scalar.tree ⟨w, start⟩ = .number w := by
  obtain ⟨c, cs, rfl, hc⟩ := h.exists_first
  -- Neither of the two tests that come before the one for numbers is met.
  have hquote : c ≠ '"' := by
    rintro rfl
    exact absurd hc (by decide)
  have hinitial : ¬ Path.isInitial c := by
    rcases hc with rfl | hc
    · decide
    · exact not_isInitial_of_isDigit hc
  simp only [Scalar.tree, if_neg hquote, if_neg hinitial]

/-- A literal word begins as a name does. -/
theorem tree_of_mem_literalWords {w start : List Char} (h : w ∈ literalWords) :
    Scalar.tree ⟨w, start⟩ = .word w := by
  simp only [literalWords, List.mem_cons, List.not_mem_nil, or_false] at h
  rcases h with rfl | rfl | rfl <;> rfl

/-- A literal word is a token where a value can end. -/
theorem scans_word {cs w rest start : List Char} (hw : w ∈ literalWords) (hcs : skip cs = w ++ rest)
    (hrest : Closes rest) : Scans cs (Scalar.tree ⟨w, start⟩).tokens rest := by
  rw [tree_of_mem_literalWords hw]
  refine ⟨rest, ?_, rfl⟩
  rw [hcs]
  exact Token.at_word_iff.mpr ⟨hw, (isName_of_mem_literalWords hw).at_name hrest.head⟩

/-- An object is a list of members in braces. -/
theorem result_object_eq_some {value : Phrase Literal} {cs rest : List Char} {v : Literal} :
    (object value cs).result = some (v, rest) ↔
      ∃ ms, (bracketed "\x7b" "\x7d" (member value) cs).result = some (ms, rest) ∧
        v = .object cs ms := by
  rw [object, result_bind_of_eq (result_here cs), result_bind_eq_some]
  constructor
  · rintro ⟨ms, mid, hms, h⟩
    cases h
    rw [members, result_rule] at hms
    exact ⟨ms, hms, rfl⟩
  · rintro ⟨ms, hms, rfl⟩
    refine ⟨ms, rest, ?_, rfl⟩
    rw [members, result_rule, hms]

/-- An array is a list of values in square brackets. -/
theorem result_array_eq_some {value : Phrase Literal} {cs rest : List Char} {v : Literal} :
    (array value cs).result = some (v, rest) ↔
      ∃ ls, (bracketed "[" "]" value cs).result = some (ls, rest) ∧ v = .array cs ls := by
  rw [array, result_rule, result_bind_of_eq (result_here cs), result_bind_eq_some]
  constructor
  · rintro ⟨ls, mid, hls, h⟩
    cases h
    exact ⟨ls, hls, rfl⟩
  · rintro ⟨ls, hls, rfl⟩
    exact ⟨ls, rest, hls, rfl⟩

/-- A member is a string, a colon and a value. -/
theorem result_member_eq_some {value : Phrase Literal} {cs rest : List Char}
    {m : Scalar × Literal} :
    (member value cs).result = some (m, rest) ↔
      ∃ mid mid', stringLiteral cs = some (m.1.raw, mid) ∧ m.1.start = cs ∧ skip mid = ':' :: mid' ∧
        (value (skip mid')).result = some (m.2, rest) := by
  rw [member, result_rule, result_bind_eq_some]
  constructor
  · rintro ⟨name, mid, hname, h⟩
    -- After the name come the colon and the value, with a gap before each.
    rw [result_bind_of_eq (result_blanks mid)] at h
    obtain ⟨w, mid', hw, h⟩ := result_bind_eq_some.mp h
    rw [result_bind_of_eq (result_blanks mid')] at h
    obtain ⟨v, rest', hv, h⟩ := result_bind_eq_some.mp h
    cases h
    obtain ⟨hraw, hstart⟩ := result_scalar_eq_some.mp hname
    exact ⟨mid, mid', hraw, hstart, (result_token_eq_some.mp hw).2, hv⟩
  · rintro ⟨mid, mid', hraw, hstart, hmid, hv⟩
    refine ⟨m.1, mid, result_scalar_eq_some.mpr ⟨hraw, hstart⟩, ?_⟩
    rw [result_bind_of_eq (result_blanks mid), hmid]
    refine result_bind_eq_some.mpr ⟨_, mid', result_token_append ":" mid', ?_⟩
    rw [result_bind_of_eq (result_blanks mid')]
    exact result_bind_eq_some.mpr ⟨m.2, rest, hv, rfl⟩

/-- The braces are a pair of brackets in the sense of the phrases for lists. -/
theorem braces : Brackets "\x7b" "\x7d" '\x7b' '\x7d' :=
  ⟨rfl, rfl, by decide, .inr rfl⟩

/-- So are the square brackets. -/
theorem squareBrackets : Brackets "[" "]" '[' ']' :=
  ⟨rfl, rfl, by decide, .inl rfl⟩

/-- If values are read soundly, members are. -/
theorem member_sound {value : Phrase Literal} (hv : Sound value fun l => l.tree.tokens) :
    Sound (member value) fun m => Tree.oneMemberTokens (memberTree m) := by
  intro cs m rest h hrest
  obtain ⟨mid, mid', hname, -, hcolon, hvalue⟩ := result_member_eq_some.mp h
  refine ⟨mid, Token.at_string_iff.mpr hname, mid', Token.at_mark_iff.mpr ⟨by decide, hcolon⟩, ?_⟩
  exact hv hvalue hrest

/-- **A value that is read is there.** Its tokens stand in the text, up to the point where the reading has
stopped. This is said only where a comma or a closing bracket follows, because the lexer of words stops in
front of further letters, as in `trueX`. -/
theorem value_sound (nesting : Nat) : Sound (value nesting) fun l => l.tree.tokens := by
  -- By induction on the containers that may still open: the parts of a container have one less.
  induction nesting with
  | zero =>
    intro cs l rest h
    cases h
  | succ nesting ih =>
    intro cs l rest h hrest
    simp only [value, result_orElse_eq_some] at h
    -- The alternatives in the order in which they are tried.
    rcases h with h | ⟨-, h | ⟨-, h | ⟨-, h | ⟨-, h | ⟨-, h⟩⟩⟩⟩⟩
    · obtain ⟨ms, hms, rfl⟩ := result_object_eq_some.mp h
      have hscan := bracketed_sound braces (member_sound ih) hms
      simpa only [Literal.tree, memberTrees_eq, Tree.Value.tokens, Tree.memberTokens_eq,
        List.map_map, Function.comp_def] using hscan
    · obtain ⟨ls, hls, rfl⟩ := result_array_eq_some.mp h
      have hscan := bracketed_sound squareBrackets ih hls
      simpa only [Literal.tree, itemTrees_eq, Tree.Value.tokens, Tree.itemTokens_eq,
        List.map_map, Function.comp_def] using hscan
    · obtain ⟨raw, hraw, rfl⟩ := result_scalarValue_eq_some.mp h
      simp only [Literal.tree, tree_of_isString (munches_stringLiteral.sound hraw).2]
      exact ⟨rest, Token.at_string_iff.mpr hraw, rfl⟩
    · obtain ⟨raw, hraw, rfl⟩ := result_scalarValue_eq_some.mp h
      simp only [Literal.tree, tree_of_isNumber (munches_numberLiteral.sound hraw).2]
      exact ⟨rest, Token.at_number_iff.mpr hraw, rfl⟩
    · obtain ⟨raw, hraw, rfl⟩ := result_scalarValue_eq_some.mp h
      obtain ⟨hword, hcs⟩ := boolLiteral_eq_some hraw
      exact scans_word hword hcs hrest
    · obtain ⟨raw, hraw, rfl⟩ := result_scalarValue_eq_some.mp h
      obtain ⟨hword, hcs⟩ := nullLiteral_eq_some hraw
      exact scans_word hword hcs hrest

/-- Where no brace opens, no object is read. -/
theorem result_object_eq_none {value : Phrase Literal} {cs : List Char}
    (h : ∀ mid, cs ≠ '\x7b' :: mid) : (object value cs).result = none := by
  rw [Option.eq_none_iff_forall_ne_some]
  rintro ⟨v, rest⟩ hv
  obtain ⟨ms, hms, -⟩ := result_object_eq_some.mp hv
  rw [bracketed_eq_none braces _ h] at hms
  cases hms

/-- Where no square bracket opens, no array is read. -/
theorem result_array_eq_none {value : Phrase Literal} {cs : List Char}
    (h : ∀ mid, cs ≠ '[' :: mid) : (array value cs).result = none := by
  rw [Option.eq_none_iff_forall_ne_some]
  rintro ⟨v, rest⟩ hv
  obtain ⟨ls, hls, -⟩ := result_array_eq_some.mp hv
  rw [bracketed_eq_none squareBrackets _ h] at hls
  cases hls

/-- A lexeme that finds the tokens of one class finds nothing where another class begins. -/
theorem lexeme_eq_none {token : List Char → Token} {l : Lexeme} {k k' : TokenClass}
    (hat : ∀ {raw cs rest}, (token raw).At cs rest ↔ l cs = some (raw, rest))
    (htoken : ∀ raw, (token raw).class = k') {c : Char} (hc : classOf? c = some k) (hk : k ≠ k')
    (cs : List Char) : l (c :: cs) = none := by
  rw [Option.eq_none_iff_forall_ne_some]
  rintro ⟨w, rest⟩ hw
  have hclass := (hat.mpr hw).classOf?_eq
  rw [hc, htoken] at hclass
  exact hk (Option.some.inj hclass)

/-- Where the first character begins a token of another class, no string is read. -/
theorem result_string_eq_none {c : Char} {k : TokenClass} (hc : classOf? c = some k)
    (hk : k ≠ .string) (cs : List Char) :
    (scalarValue .string stringLiteral (c :: cs)).result = none :=
  result_scalarValue_eq_none (lexeme_eq_none Token.at_string_iff (fun _ => rfl) hc hk cs)

/-- Nor a number. -/
theorem result_number_eq_none {c : Char} {k : TokenClass} (hc : classOf? c = some k)
    (hk : k ≠ .number) (cs : List Char) :
    (scalarValue .number numberLiteral (c :: cs)).result = none :=
  result_scalarValue_eq_none (lexeme_eq_none Token.at_number_iff (fun _ => rfl) hc hk cs)

/-- A value in front of which no container opens is a scalar. -/
theorem result_value_of_class {c : Char} {k : TokenClass} (hc : classOf? c = some k)
    (hk : k ≠ .mark) (nesting : Nat) (cs : List Char) :
    (value (nesting + 1) (c :: cs)).result =
      (orElse (scalarValue .string stringLiteral) (orElse (scalarValue .number numberLiteral)
        (orElse (scalarValue .jsonBool boolLiteral) (scalarValue .jsonNull nullLiteral)))
        (c :: cs)).result := by
  -- An opening bracket of either kind is a mark.
  have hbrace : ∀ mid, c :: cs ≠ '\x7b' :: mid := by
    intro mid h
    obtain ⟨rfl, -⟩ := List.cons.inj h
    exact hk (Option.some.inj hc).symm
  have hbracket : ∀ mid, c :: cs ≠ '[' :: mid := by
    intro mid h
    obtain ⟨rfl, -⟩ := List.cons.inj h
    exact hk (Option.some.inj hc).symm
  rw [value, result_orElse_of_none (result_object_eq_none hbrace),
    result_orElse_of_none (result_array_eq_none hbracket)]

/-- A string is read as a value wherever the lexer finds one. -/
theorem result_value_string {cs raw rest : List Char} (h : stringLiteral cs = some (raw, rest))
    (nesting : Nat) :
    (value (nesting + 1) cs).result = some (.scalar ⟨raw, cs⟩, rest) := by
  obtain ⟨rfl, body, -, rfl⟩ := munches_stringLiteral.sound h
  have hread : (scalarValue .string stringLiteral _).result = some _ :=
    result_scalarValue_eq_some.mpr ⟨_, h, rfl⟩
  simp only [List.cons_append] at h hread ⊢
  -- The class of the quote selects the scalars, and strings are tried first among them.
  rw [result_value_of_class rfl (by decide)]
  exact result_orElse_eq_some.mpr (.inl hread)

/-- A number is read as a value, since what begins it does not begin a string. -/
theorem result_value_number {cs raw rest : List Char} (h : numberLiteral cs = some (raw, rest))
    (nesting : Nat) :
    (value (nesting + 1) cs).result = some (.scalar ⟨raw, cs⟩, rest) := by
  obtain ⟨rfl, hraw⟩ := munches_numberLiteral.sound h
  have hread : (scalarValue .number numberLiteral _).result = some _ :=
    result_scalarValue_eq_some.mpr ⟨_, h, rfl⟩
  obtain ⟨c, ds, rfl, hc⟩ := hraw.exists_first
  have hclass := classOf?_of_isDigit hc
  rw [List.cons_append] at h hread ⊢
  have hstring := result_string_eq_none hclass (by decide) (ds ++ rest)
  rw [result_value_of_class hclass (by decide), result_orElse_of_none hstring]
  exact result_orElse_eq_some.mpr (.inl hread)

/-- Each of the literal words is read as a value. -/
theorem result_value_word {w rest : List Char} (hw : w ∈ literalWords) (nesting : Nat) :
    (value (nesting + 1) (w ++ rest)).result = some (.scalar ⟨w, w ++ rest⟩, rest) := by
  obtain ⟨c, ds, hwc, hc⟩ := (isName_of_mem_literalWords hw).exists_initial
  have hclass := classOf?_of_isInitial hc
  -- A word begins like a name, so it is neither a string nor a number.
  have hstring := result_string_eq_none hclass (by decide) (ds ++ rest)
  have hnumber := result_number_eq_none hclass (by decide) (ds ++ rest)
  have hread : (orElse (scalarValue .jsonBool boolLiteral) (scalarValue .jsonNull nullLiteral)
      (w ++ rest)).result = some (.scalar ⟨w, w ++ rest⟩, rest) := by
    rw [result_orElse_eq_some]
    simp only [literalWords, List.mem_cons, List.not_mem_nil, or_false] at hw
    rcases hw with rfl | rfl | rfl
    · exact .inl (result_scalarValue_eq_some.mpr ⟨_, rfl, rfl⟩)
    · exact .inl (result_scalarValue_eq_some.mpr ⟨_, rfl, rfl⟩)
    · exact .inr ⟨result_scalarValue_eq_none rfl, result_scalarValue_eq_some.mpr ⟨_, rfl, rfl⟩⟩
  rw [hwc, List.cons_append] at hread ⊢
  rw [result_value_of_class hclass (by decide), result_orElse_of_none hstring,
    result_orElse_of_none hnumber, hread]

/-- No value begins like the end of a list. -/
theorem skip_ne_of_scans_value {v : Tree.Value} {cs rest : List Char} {c : Char}
    (hc : c = ']' ∨ c = '\x7d') (h : Scans cs v.tokens rest) (r : List Char) :
    skip cs ≠ c :: r := by
  intro hr
  have hmark : classOf? c = some .mark := by rcases hc with rfl | rfl <;> rfl
  -- The first token of a value is an opening bracket or no mark at all.
  cases v <;> obtain ⟨mid, hat, -⟩ := h <;> rw [hr] at hat
  case array | object =>
    have heq := (List.cons.inj (Token.at_mark_iff.mp hat).2).1
    rcases hc with rfl | rfl <;> exact absurd heq (by decide)
  all_goals
    have hclass := hat.classOf?_eq
    rw [hmark] at hclass
    exact absurd (Option.some.inj hclass) (by simp [Token.class])

/-- Where the tokens of a member are, no bracket closes: a member begins with a string. So the empty list,
which is tried first, does not match there. -/
theorem skip_ne_of_scans_member {m : List Char × Tree.Value} {cs rest : List Char} {c : Char}
    (hc : c = ']' ∨ c = '\x7d') (h : Scans cs (Tree.oneMemberTokens m) rest) (r : List Char) :
    skip cs ≠ c :: r := by
  intro hr
  obtain ⟨mid, hat, -⟩ := h
  rw [hr] at hat
  have hclass := hat.classOf?_eq
  rcases hc with rfl | rfl <;> cases hclass

/-- If the value of a member is found where its tokens are, the member is. -/
theorem member_complete {p : Phrase Literal} {m : List Char × Tree.Value}
    (hv : Complete p Literal.tree Tree.Value.tokens m.2) :
    Complete (member p) memberTree Tree.oneMemberTokens m := by
  rintro cs rest ⟨mid, hname, mid', hcolon, hvalue⟩
  obtain ⟨l, hl, hread⟩ := hv hvalue
  refine ⟨(⟨m.1, skip cs⟩, l), by rw [memberTree, hl], ?_⟩
  refine result_member_eq_some.mpr ⟨mid, mid', Token.at_string_iff.mp hname, rfl, ?_, hread⟩
  exact (Token.at_mark_iff.mp hcolon).2

/-- The object that a list of members is, if the values of the members are read completely. -/
theorem object_complete {p : Phrase Literal} {ms : List (List Char × Tree.Value)}
    (hms : ∀ m ∈ ms, Complete p Literal.tree Tree.Value.tokens m.2) {cs rest : List Char}
    (h : Scans cs (.mark '\x7b' :: Tree.memberTokens ms) rest) :
    ∃ ls, ls.map memberTree = ms ∧
      (bracketed "\x7b" "\x7d" (member p) (skip cs)).result = some (ls, rest) := by
  rw [Tree.memberTokens_eq] at h
  refine bracketed_complete braces (fun m hm => member_complete (hms m hm)) ?_ h
  intro m _ cs rest h
  exact skip_ne_of_scans_member (.inr rfl) h

mutual

/-- **A value that is there is read**, provided that as many containers may open as it has levels. -/
theorem value_complete : ∀ (v : Tree.Value) {nesting : Nat}, v.depth < nesting →
    Complete (value nesting) Literal.tree Tree.Value.tokens v
  | v, 0, h => absurd h (Nat.not_lt_zero _)
  | .string raw, nesting + 1, _ => by
    rintro cs rest ⟨mid, hat, rfl⟩
    have hraw := Token.at_string_iff.mp hat
    refine ⟨_, ?_, result_value_string hraw nesting⟩
    exact tree_of_isString (munches_stringLiteral.sound hraw).2
  | .number raw, nesting + 1, _ => by
    rintro cs rest ⟨mid, hat, rfl⟩
    have hraw := Token.at_number_iff.mp hat
    refine ⟨_, ?_, result_value_number hraw nesting⟩
    exact tree_of_isNumber (munches_numberLiteral.sound hraw).2
  | .word raw, nesting + 1, _ => by
    rintro cs rest ⟨mid, hat, rfl⟩
    obtain ⟨hw, _, hn, hcs, -⟩ := Token.at_word_iff.mp hat
    cases hn
    rw [hcs]
    refine ⟨_, ?_, result_value_word hw nesting⟩
    exact tree_of_mem_literalWords hw
  | .array items, nesting + 1, h => by
    rintro cs rest hscan
    -- The items are one container less deep than the array.
    have hitems := items_complete items (Nat.lt_of_succ_lt_succ h)
    rw [Tree.Value.tokens, Tree.itemTokens_eq] at hscan
    obtain ⟨ls, hls, hread⟩ := bracketed_complete squareBrackets hitems
      (fun v _ cs rest h => skip_ne_of_scans_value (.inl rfl) h) hscan
    refine ⟨.array (skip cs) ls, by rw [Literal.tree, itemTrees_eq, hls], ?_⟩
    obtain ⟨mid, hopen, -⟩ := hscan
    -- Objects are tried first, and fail at the square bracket.
    have hnone : (object (value nesting) (skip cs)).result = none := by
      refine result_object_eq_none fun mid' h => ?_
      rw [(Token.at_mark_iff.mp hopen).2] at h
      exact absurd (List.cons.inj h).1 (by decide)
    rw [value, result_orElse_of_none hnone]
    exact result_orElse_eq_some.mpr (.inl (result_array_eq_some.mpr ⟨ls, hread, rfl⟩))
  | .object ms, nesting + 1, h => by
    rintro cs rest hscan
    have hms := members_complete ms (Nat.lt_of_succ_lt_succ h)
    obtain ⟨ls, hls, hread⟩ := object_complete hms hscan
    refine ⟨.object (skip cs) ls, by rw [Literal.tree, memberTrees_eq, hls], ?_⟩
    exact result_orElse_eq_some.mpr (.inl (result_object_eq_some.mpr ⟨ls, hread, rfl⟩))

/-- The same of each item of a list. -/
theorem items_complete : ∀ (vs : List Tree.Value) {nesting : Nat}, Tree.itemsDepth vs < nesting →
    ∀ v ∈ vs, Complete (value nesting) Literal.tree Tree.Value.tokens v
  | [], _, _ => by simp
  | v :: vs, nesting, h => by
    rw [Tree.itemsDepth, Nat.max_lt] at h
    exact List.forall_mem_cons.mpr ⟨value_complete v h.1, items_complete vs h.2⟩

/-- The same of the value of each member. -/
theorem members_complete : ∀ (ms : List (List Char × Tree.Value)) {nesting : Nat},
    Tree.membersDepth ms < nesting →
    ∀ m ∈ ms, Complete (value nesting) Literal.tree Tree.Value.tokens m.2
  | [], _, _ => by simp
  | (name, v) :: ms, nesting, h => by
    rw [Tree.membersDepth, Nat.max_lt] at h
    exact List.forall_mem_cons.mpr ⟨value_complete v h.1, members_complete ms h.2⟩

end

end Phrase

end ModelText.Grammar
