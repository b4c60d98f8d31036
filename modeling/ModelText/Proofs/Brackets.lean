import ModelText.Proofs.Nesting

/-!
# Which brackets count

Any text, a document or not, is code with string literals and comments in it. A string literal goes on
up to the first quote that no backslash escapes, whatever its escapes are; a line comment goes on up to
the end of its line, and a block comment up to the first mark that closes it. Where a string or a block
comment is never closed the code ends. `Code` lists the characters that are in code, each with the text
after it; every text has just one such list (`existsUnique_code`).

The scan for brackets goes character by character and remembers one. What it counts are the brackets
among the characters of the code, and no others: it stops where the count of these alone exceeds the
limit (`Code.tooDeep?_eq`).
-/

namespace ModelText.Grammar

/-! ### The code in a text -/

/-- No quote closes the string that `cs` goes on with. -/
def Unclosed (cs : List Char) : Prop :=
  ∀ body rest, Quoted body → cs ≠ body ++ '"' :: rest

/-- The characters of a text that are in code, each with the text after it. -/
inductive Code : List Char → List (Char × List Char) → Prop
  | done : Code [] []
  | char {c : Char} {cs : List Char} {code : List (Char × List Char)} : c ≠ '"' → NoComment c cs →
      Code cs code → Code (c :: cs) ((c, cs) :: code)
  | string {body cs : List Char} {code : List (Char × List Char)} : Quoted body → Code cs code →
      Code ('"' :: (body ++ '"' :: cs)) code
  | line {body cs : List Char} {code : List (Char × List Char)} : (∀ c ∈ body, c ≠ '\n') →
      (∀ c ∈ cs.head?, c = '\n') → Code cs code → Code ('/' :: '/' :: (body ++ cs)) code
  | block {body cs : List Char} {code : List (Char × List Char)} :
      ¬ ['*', '/'] <:+: body ++ ['*'] → Code cs code →
      Code ('/' :: '*' :: (body ++ '*' :: '/' :: cs)) code
  | openString {body : List Char} : Unclosed body → Code ('"' :: body) []
  | openBlock {body : List Char} : ¬ ['*', '/'] <:+: body → Code ('/' :: '*' :: body) []

/-- What follows the quote that closes a string, if one does. -/
def afterString : List Char → Option (List Char)
  | [] => none
  | '"' :: rest => some rest
  | ['\\'] => none
  | '\\' :: _ :: rest => afterString rest
  | _ :: rest => afterString rest

/-- A backslash stands at the end of a text or in front of a character. -/
theorem ne_backslash {c : Char} {rest : List Char} (hlast : c = '\\' → rest = [] → False)
    (hescape : ∀ e more, c = '\\' → rest = e :: more → False) : c ≠ '\\' := by
  intro hc
  cases rest with
  | nil => exact hlast hc rfl
  | cons e more => exact hescape e more hc rfl

/-- A string goes on up to the first quote that is not escaped. -/
theorem afterString_eq_some_iff {cs rest : List Char} :
    afterString cs = some rest ↔ ∃ body, Quoted body ∧ cs = body ++ '"' :: rest := by
  constructor
  · -- By recursion on the text, character by character and escape by escape.
    intro h
    fun_induction afterString cs with
    | case1 => cases h
    | case2 rest' =>
      cases h
      exact ⟨[], .nil, rfl⟩
    | case3 => cases h
    | case4 e rest' ih =>
      obtain ⟨body, hbody, rfl⟩ := ih h
      exact ⟨_, .escape e hbody, rfl⟩
    | case5 c rest' hquote hlast hescape ih =>
      obtain ⟨body, hbody, rfl⟩ := ih h
      exact ⟨c :: body, .plain hquote (ne_backslash hlast hescape) hbody, rfl⟩
  · -- By induction on what stands between the quotes.
    rintro ⟨body, hbody, rfl⟩
    induction hbody with
    | nil => rfl
    | plain hquote hescape _ ih =>
      rw [List.cons_append, afterString]
      · exact ih
      · exact hquote
      · exact fun h _ => hescape h
      · exact fun _ _ h _ => hescape h
    | escape e _ ih => exact ih

/-- Where no quote ends the string, there is nothing behind it. -/
theorem afterString_eq_none_iff {cs : List Char} : afterString cs = none ↔ Unclosed cs := by
  rw [Option.eq_none_iff_forall_ne_some]
  constructor
  · intro h body rest hbody hcs
    exact h rest (afterString_eq_some_iff.mpr ⟨body, hbody, hcs⟩)
  · intro h rest hrest
    obtain ⟨body, hbody, hcs⟩ := afterString_eq_some_iff.mp hrest
    exact h body rest hbody hcs

/-- A block comment is open at the end if the mark that closes it does not occur. -/
theorem afterBlock_eq_none_iff {cs : List Char} :
    afterBlock cs = none ↔ ¬ ['*', '/'] <:+: cs := by
  constructor
  · intro h
    fun_induction afterBlock cs with
    | case1 => exact fun h => absurd h.length_le (by decide)
    | case2 rest => cases h
    | case3 c cs hclose ih =>
      rw [List.infix_cons_iff]
      rintro (⟨rest, hfront⟩ | hinside)
      · obtain ⟨rfl, rfl⟩ := List.cons.inj hfront
        exact hclose rest rfl rfl
      · exact ih h hinside
  · intro h
    rw [Option.eq_none_iff_forall_ne_some]
    intro rest hrest
    obtain ⟨body, rfl, -⟩ := afterBlock_sound hrest
    exact h ⟨body, rest, by simp⟩

/-! ### Every text has its code -/

/-- How the code of a text goes on is told by its first characters. At the end there is none. -/
theorem code_nil_iff {code : List (Char × List Char)} : Code [] code ↔ code = [] := by
  constructor
  · rintro ⟨⟩
    rfl
  · rintro rfl
    exact .done

/-- A character that begins neither a string nor a comment is code. -/
theorem code_char_iff {c : Char} {cs : List Char} {code : List (Char × List Char)} (hquote : c ≠ '"')
    (hcomment : NoComment c cs) :
    Code (c :: cs) code ↔ ∃ more, Code cs more ∧ code = (c, cs) :: more := by
  constructor
  · intro h
    -- Each other way to begin needs a quote or a comment.
    cases h with
    | char _ _ h => exact ⟨_, h, rfl⟩
    | string => exact absurd rfl hquote
    | line => exact absurd rfl (hcomment rfl _ rfl).1
    | block => exact absurd rfl (hcomment rfl _ rfl).2
    | openString => exact absurd rfl hquote
    | openBlock => exact absurd rfl (hcomment rfl _ rfl).2
  · rintro ⟨more, h, rfl⟩
    exact .char hquote hcomment h

/-- A string is left out. If it does not end, everything behind its quote is. -/
theorem code_string_iff {cs : List Char} {code : List (Char × List Char)} :
    Code ('"' :: cs) code ↔ (∃ rest, afterString cs = some rest ∧ Code rest code) ∨
      afterString cs = none ∧ code = [] := by
  constructor
  · intro h
    cases h with
    | char hquote _ _ => exact absurd rfl hquote
    | string hbody h => exact .inl ⟨_, afterString_eq_some_iff.mpr ⟨_, hbody, rfl⟩, h⟩
    | openString hopen => exact .inr ⟨afterString_eq_none_iff.mpr hopen, rfl⟩
  · rintro (⟨rest, hrest, h⟩ | ⟨hnone, rfl⟩)
    · obtain ⟨body, hbody, rfl⟩ := afterString_eq_some_iff.mp hrest
      exact .string hbody h
    · exact .openString (afterString_eq_none_iff.mp hnone)

/-- A line comment is left out up to the end of its line. -/
theorem code_line_iff {cs : List Char} {code : List (Char × List Char)} :
    Code ('/' :: '/' :: cs) code ↔ Code (cs.dropWhile (· != '\n')) code := by
  constructor
  · intro h
    cases h with
    | char _ hcomment _ => exact absurd rfl (hcomment rfl _ rfl).1
    | line hbody hend h => rwa [dropWhile_line hbody hend]
  · intro h
    have hline := Code.line (ne_of_mem_takeWhile cs) (head?_dropWhile_ne cs) h
    rwa [List.takeWhile_append_dropWhile] at hline

/-- A block comment is left out up to its closing mark. If there is none, everything behind its beginning
is. -/
theorem code_block_iff {cs : List Char} {code : List (Char × List Char)} :
    Code ('/' :: '*' :: cs) code ↔ (∃ rest, afterBlock cs = some rest ∧ Code rest code) ∨
      afterBlock cs = none ∧ code = [] := by
  constructor
  · intro h
    cases h with
    | char _ hcomment _ => exact absurd rfl (hcomment rfl _ rfl).2
    | block hbody h => exact .inl ⟨_, afterBlock_append hbody _, h⟩
    | openBlock hopen => exact .inr ⟨afterBlock_eq_none_iff.mpr hopen, rfl⟩
  · rintro (⟨rest, hrest, h⟩ | ⟨hnone, rfl⟩)
    · obtain ⟨body, rfl, hbody⟩ := afterBlock_sound hrest
      exact .block hbody h
    · exact .openBlock (afterBlock_eq_none_iff.mp hnone)

/-- What begins a comment is a slash and then a slash or a star. -/
theorem exists_comment_of_not {c : Char} {cs : List Char} (h : ¬ NoComment c cs) :
    ∃ d rest, c = '/' ∧ cs = d :: rest ∧ (d = '/' ∨ d = '*') := by
  rw [NoComment, Classical.not_imp] at h
  obtain ⟨rfl, h⟩ := h
  cases cs with
  | nil => exact absurd (fun _ hd => absurd hd (by simp)) h
  | cons d rest =>
    refine ⟨d, rest, rfl, rfl, ?_⟩
    by_contra hne
    refine h fun e he => ?_
    obtain rfl := Option.some.inj he
    exact not_or.mp hne

/-- Every text has its code, and no other. -/
theorem existsUnique_code (text : List Char) : ∃! code, Code text code := by
  induction hlength : text.length using Nat.strongRecOn generalizing text with
  | ind n ih =>
  have hrest : ∀ rest : List Char, rest.length < text.length → ∃! code, Code rest code :=
    fun rest hlt => ih _ (hlength ▸ hlt) rest rfl
  -- The first characters leave one way to go on, and what is left is shorter.
  cases text with
  | nil => simp only [code_nil_iff, existsUnique_eq]
  | cons c cs =>
    by_cases hquote : c = '"'
    · subst hquote
      simp only [code_string_iff]
      cases hafter : afterString cs with
      | none => simp
      | some rest =>
        obtain ⟨body, -, rfl⟩ := afterString_eq_some_iff.mp hafter
        have hlt : rest.length < ('"' :: (body ++ '"' :: rest)).length := by
          simp only [List.length_cons, List.length_append]
          omega
        simpa using hrest rest hlt
    · by_cases hcomment : NoComment c cs
      · obtain ⟨code, hcode, hunique⟩ := hrest cs (Nat.lt_succ_self _)
        refine ⟨(c, cs) :: code, .char hquote hcomment hcode, fun code' h => ?_⟩
        obtain ⟨more, hmore, rfl⟩ := (code_char_iff hquote hcomment).mp h
        rw [hunique more hmore]
      · obtain ⟨d, cs, rfl, rfl, rfl | rfl⟩ := exists_comment_of_not hcomment
        · have hend := length_dropWhile_le (· != '\n') cs
          simp only [code_line_iff]
          exact hrest _ (by simp only [List.length_cons]; omega)
        · simp only [code_block_iff]
          cases hafter : afterBlock cs with
          | none => simp
          | some rest =>
            have hlt := length_afterBlock hafter
            simpa using hrest rest (by simp only [List.length_cons]; omega)

/-! ### The count -/

/-- The text from the first character of the code on with which more than `limit` containers are open,
`depth` being open at first. -/
def firstOver (limit : Nat) : Nat → List (Char × List Char) → Option (List Char)
  | _, [] => none
  | depth, (c, rest) :: code =>
    let opened := Scan.depthAfter .code c depth
    if limit < opened then some (c :: rest) else firstOver limit opened code

variable {limit depth : Nat}

/-- The scan does not leave a string that is never closed. -/
theorem firstTooDeepFrom_unclosed {cs : List Char} (h : afterString cs = none) (hfits : depth ≤ limit)
    (previous : Char) : firstTooDeepFrom limit .string previous depth cs = none := by
  -- By recursion on the text. The scan stays in the string, and an escape takes two of its steps.
  fun_induction afterString cs generalizing previous with
  | case1 => rfl
  | case2 => cases h
  | case3 =>
    have hstep : Scan.step .string previous '\\' = (.escape, '\\') := by simp [Scan.step]
    rw [firstTooDeepFrom_same rfl hstep hfits]
    rfl
  | case4 e rest ih =>
    have hstep : Scan.step .string previous '\\' = (.escape, '\\') := by simp [Scan.step]
    have hletter : Scan.step .escape '\\' e = (.string, e) := rfl
    rw [firstTooDeepFrom_same rfl hstep hfits, firstTooDeepFrom_same rfl hletter hfits]
    exact ih h e
  | case5 c rest hquote hlast hescape ih =>
    have hplain : c ≠ '\\' := ne_backslash hlast hescape
    have hstep : Scan.step .string previous c = (.string, c) := by
      rw [Scan.step, if_neg hplain, if_neg hquote]
    rw [firstTooDeepFrom_same rfl hstep hfits]
    exact ih h c

/-- **The scan counts the brackets of the code.** Strings and comments hide all others. -/
theorem Code.tooDeep?_eq {text : List Char} {code : List (Char × List Char)} (h : Code text code)
    (hfits : depth ≤ limit) : tooDeep? limit depth text = firstOver limit depth code := by
  -- By induction on the code: only its characters can change what is open.
  induction h generalizing depth with
  | done => rfl
  | @char c cs code hquote hcomment _ ih =>
    rw [tooDeep?_cons hquote hcomment, firstOver]
    split
    · rfl
    · next hopened => exact ih (Nat.not_lt.mp hopened)
  | string hbody _ ih => exact (tooDeep?_string hbody hfits _).trans (ih hfits)
  | line hbody hend _ ih => exact (tooDeep?_line hbody hend hfits).trans (ih hfits)
  | block hbody _ ih => exact (tooDeep?_block hbody hfits _).trans (ih hfits)
  | openString hopen =>
    rw [tooDeep?_quote hfits]
    exact firstTooDeepFrom_unclosed (afterString_eq_none_iff.mpr hopen) hfits '"'
  | @openBlock body hopen =>
    have hscan := @tooDeep?_openBlock limit depth body hopen hfits []
    rwa [List.append_nil] at hscan

end ModelText.Grammar
