import ModelText.Grammar.Nesting
import ModelText.Proofs.Tree

/-!
# The scan for brackets follows the tokens

The scan that refuses a text before it is read knows nothing of tokens. On a text that is a sequence
of tokens it sees of them just the opening and closing marks: it is in code before and after every
token and every gap, and the open containers it counts are those of the marks so far. So it goes over
a text that has a derivation without stopping exactly if no body nests deeper than the limit
(`Tree.Document.Derives.firstTooDeep_eq_none_iff`).

Two slashes with a token or a gap between them open no comment. The scan sees this by the character
before the next one, which is never a slash where a token or a gap ends (`firstTooDeepFrom_previous`).

Where it does stop, it stops at the first mark that opens one container too many
(`Lexes.exists_firstBeyond`).
-/

namespace ModelText.Grammar

/-- Where the scan stops in the rest of a text, with `depth` containers open and no slash right before
it. -/
def tooDeep? (limit depth : Nat) (cs : List Char) : Option (List Char) :=
  firstTooDeepFrom limit .code '\x00' depth cs

/-- The scan goes over the rest of a text without stopping. -/
def Clear (limit depth : Nat) (cs : List Char) : Prop :=
  tooDeep? limit depth cs = none

variable {limit depth : Nat}

/-! ### Single steps -/

/-- One character of the scan, if the depth behind it is within the limit. -/
theorem firstTooDeepFrom_cons {scan scan' : Scan} {previous previous' c : Char} {opened : Nat}
    {cs : List Char} (hopened : scan.depthAfter c depth = opened)
    (hstep : scan.step previous c = (scan', previous')) (hfits : opened ≤ limit) :
    firstTooDeepFrom limit scan previous depth (c :: cs) =
      firstTooDeepFrom limit scan' previous' opened cs := by
  rw [firstTooDeepFrom]
  simp only [hopened, hstep]
  exact if_neg (Nat.not_lt.mpr hfits)

/-- A step that neither opens nor closes a container. -/
theorem firstTooDeepFrom_same {scan scan' : Scan} {previous previous' c : Char} {cs : List Char}
    (hopened : scan.depthAfter c depth = depth)
    (hstep : scan.step previous c = (scan', previous')) (hfits : depth ≤ limit) :
    firstTooDeepFrom limit scan previous depth (c :: cs) =
      firstTooDeepFrom limit scan' previous' depth cs :=
  firstTooDeepFrom_cons hopened hstep hfits

/-- The characters `c` and then `cs` do not begin with the mark of a comment. -/
def NoComment (c : Char) (cs : List Char) : Prop :=
  c = '/' → ∀ d ∈ cs.head?, d ≠ '/' ∧ d ≠ '*'

/-- Only a slash begins a comment. -/
theorem noComment_of_ne {c : Char} (h : c ≠ '/') (cs : List Char) : NoComment c cs :=
  fun hc => absurd hc h

/-- The character before a text makes a difference only if it begins a comment. -/
theorem firstTooDeepFrom_previous {previous : Char} {cs : List Char} (h : NoComment previous cs) :
    firstTooDeepFrom limit .code previous depth cs = tooDeep? limit depth cs := by
  cases cs with
  | nil => rfl
  | cons c cs =>
    have hstep : Scan.step .code previous c = Scan.step .code '\x00' c := by
      by_cases hslash : previous = '/'
      · obtain ⟨hc, hc'⟩ := h hslash c rfl
        simp [Scan.step, hc, hc']
      · simp [Scan.step, hslash]
    simp only [tooDeep?, firstTooDeepFrom, hstep]

/-- Nothing is too deep in the empty text. -/
theorem clear_nil : Clear limit depth [] := rfl

/-- In code a character counts for what it opens or closes. -/
theorem tooDeep?_cons {c : Char} {cs : List Char} (hquote : c ≠ '"') (hcomment : NoComment c cs) :
    tooDeep? limit depth (c :: cs) =
      if limit < Scan.depthAfter .code c depth then some (c :: cs)
      else tooDeep? limit (Scan.depthAfter .code c depth) cs := by
  have hstep : Scan.step .code '\x00' c = (.code, c) := by simp [Scan.step, hquote]
  rw [tooDeep?, firstTooDeepFrom]
  simp only [hstep]
  rw [firstTooDeepFrom_previous hcomment]

/-- If nothing is too deep from a character on, then neither is it there nor behind it. -/
theorem Clear.of_cons {c : Char} {cs : List Char} (h : Clear limit depth (c :: cs)) (hquote : c ≠ '"')
    (hcomment : NoComment c cs) :
    Scan.depthAfter .code c depth ≤ limit ∧ Clear limit (Scan.depthAfter .code c depth) cs := by
  rw [Clear, tooDeep?_cons hquote hcomment] at h
  split at h
  · cases h
  · next hfits => exact ⟨Nat.not_lt.mp hfits, h⟩

/-- A character that the scan stays in code at, with nothing opened or closed. -/
structure IsPlain (c : Char) : Prop where
  quote : c ≠ '"'
  slash : c ≠ '/'
  opening : ¬ isOpening c
  closing : ¬ isClosing c

/-- Being plain can be decided. -/
theorem isPlain_iff {c : Char} :
    IsPlain c ↔ c ≠ '"' ∧ c ≠ '/' ∧ ¬ isOpening c ∧ ¬ isClosing c :=
  ⟨fun h => ⟨h.quote, h.slash, h.opening, h.closing⟩, fun ⟨hq, hs, ho, hc⟩ => ⟨hq, hs, ho, hc⟩⟩

instance : DecidablePred IsPlain := fun _ => decidable_of_iff _ isPlain_iff.symm

/-- So it can be evaluated for a whole text. -/
theorem forall_isPlain {w : List Char} (h : w.all fun c => decide (IsPlain c)) : ∀ c ∈ w, IsPlain c :=
  fun c hc => of_decide_eq_true (List.all_eq_true.mp h c hc)

/-- A plain character does not change what the scan finds behind it. -/
theorem IsPlain.tooDeep?_cons {c : Char} {cs : List Char} (hc : IsPlain c) (hfits : depth ≤ limit) :
    tooDeep? limit depth (c :: cs) = tooDeep? limit depth cs := by
  have hopened : Scan.depthAfter .code c depth = depth := by
    rw [Scan.depthAfter, if_neg hc.opening, if_neg hc.closing]
  rw [Grammar.tooDeep?_cons hc.quote (noComment_of_ne hc.slash cs), hopened,
    if_neg (Nat.not_lt.mpr hfits)]

/-- Neither does a text of plain characters. -/
theorem tooDeep?_append {w : List Char} (hw : ∀ c ∈ w, IsPlain c) (hfits : depth ≤ limit)
    (cs : List Char) : tooDeep? limit depth (w ++ cs) = tooDeep? limit depth cs := by
  -- By induction on the plain characters.
  induction w with
  | nil => rfl
  | cons c w ih =>
    obtain ⟨hc, hw⟩ := List.forall_mem_cons.mp hw
    exact (hc.tooDeep?_cons hfits).trans (ih hw)

/-! ### String literals -/

/-- What may stand between two quotes: any character after a backslash, and any other one that is no
quote. -/
inductive Quoted : List Char → Prop
  | nil : Quoted []
  | plain {c : Char} {cs : List Char} : c ≠ '"' → c ≠ '\\' → Quoted cs → Quoted (c :: cs)
  | escape (e : Char) {cs : List Char} : Quoted cs → Quoted ('\\' :: e :: cs)

/-- Hexadecimal digits neither end a string nor escape anything. -/
theorem plain_of_hexValue? {c : Char} (h : (Json.Reader.hexValue? c).isSome) :
    c ≠ '"' ∧ c ≠ '\\' := by
  constructor <;> rintro rfl <;> exact absurd h (by decide)

/-- The four that stand in an escape are hexadecimal digits each. -/
theorem hexValue?_of_hexValues? {a b c d : Char} (h : (Json.Reader.hexValues? a b c d).isSome) :
    ∀ x ∈ [a, b, c, d], (Json.Reader.hexValue? x).isSome := by
  obtain ⟨n, hn⟩ := Option.isSome_iff_exists.mp h
  simp only [Json.Reader.hexValues?, Option.bind_eq_bind, Option.bind_eq_some_iff] at hn
  obtain ⟨_, ha, _, hb, _, hc, _, hd, -⟩ := hn
  simp [ha, hb, hc, hd]

/-- Of an escape by number, the digits are plain characters after the escape of a letter. -/
theorem IsStringBody.quoted {body : List Char} (h : IsStringBody body) : Quoted body := by
  induction h with
  | nil => exact .nil
  | plain hquote hescape _ ih => exact .plain hquote hescape ih
  | letter _ _ ih => exact .escape _ ih
  | @number a b c d ds hhex _ ih =>
    have hplain : ∀ x ∈ [a, b, c, d], x ≠ '"' ∧ x ≠ '\\' := fun x hx =>
      plain_of_hexValue? (hexValue?_of_hexValues? hhex x hx)
    simp only [List.forall_mem_cons, List.not_mem_nil, false_implies, implies_true,
      and_true] at hplain
    obtain ⟨ha, hb, hc, hd⟩ := hplain
    exact .escape _ (.plain ha.1 ha.2 (.plain hb.1 hb.2 (.plain hc.1 hc.2 (.plain hd.1 hd.2 ih))))

/-- Inside a string the scan remembers nothing of the character before. -/
theorem firstTooDeepFrom_string (previous previous' : Char) (cs : List Char) :
    firstTooDeepFrom limit .string previous depth cs =
      firstTooDeepFrom limit .string previous' depth cs := by
  cases cs <;> rfl

/-- The scan stays in a string up to the first quote that is not escaped. -/
theorem firstTooDeepFrom_quoted {body : List Char} (hbody : Quoted body) (hfits : depth ≤ limit)
    (previous : Char) (cs : List Char) :
    firstTooDeepFrom limit .string previous depth (body ++ cs) =
      firstTooDeepFrom limit .string previous depth cs := by
  -- By induction on what stands in the string. An escape takes the scan two steps.
  induction hbody with
  | nil => rfl
  | @plain c body hquote hescape _ ih =>
    have hstep : Scan.step .string previous c = (.string, c) := by
      rw [Scan.step, if_neg hescape, if_neg hquote]
    rw [List.cons_append, firstTooDeepFrom_same rfl hstep hfits, firstTooDeepFrom_string c previous]
    exact ih
  | @escape e body _ ih =>
    have hescape : Scan.step .string previous '\\' = (.escape, '\\') := by simp [Scan.step]
    have hletter : Scan.step .escape '\\' e = (.string, e) := rfl
    rw [List.cons_append, List.cons_append, firstTooDeepFrom_same rfl hescape hfits,
      firstTooDeepFrom_same rfl hletter hfits, firstTooDeepFrom_string e previous]
    exact ih

/-- A quote takes the scan into a string. -/
theorem tooDeep?_quote (hfits : depth ≤ limit) (cs : List Char) :
    tooDeep? limit depth ('"' :: cs) = firstTooDeepFrom limit .string '"' depth cs := by
  have hstep : Scan.step .code '\x00' '"' = (.string, '"') := by simp [Scan.step]
  exact firstTooDeepFrom_same rfl hstep hfits

/-- A string hides whatever stands in it, whether its escapes mean something or not. -/
theorem tooDeep?_string {body : List Char} (hbody : Quoted body) (hfits : depth ≤ limit)
    (cs : List Char) : tooDeep? limit depth ('"' :: (body ++ '"' :: cs)) = tooDeep? limit depth cs := by
  have hstep : Scan.step .string '"' '"' = (.code, '"') := by simp [Scan.step]
  rw [tooDeep?_quote hfits, firstTooDeepFrom_quoted hbody hfits,
    firstTooDeepFrom_same rfl hstep hfits, firstTooDeepFrom_previous (noComment_of_ne (by decide) cs)]

/-! ### Gaps -/

/-- A line comment hides whatever stands before the end of its line. -/
theorem firstTooDeepFrom_line {body cs : List Char} (hbody : ∀ c ∈ body, c ≠ '\n')
    (hend : ∀ c ∈ cs.head?, c = '\n') (hfits : depth ≤ limit) (previous : Char) :
    firstTooDeepFrom limit .lineComment previous depth (body ++ cs) = tooDeep? limit depth cs := by
  induction body generalizing previous with
  | nil =>
    cases cs with
    | nil => rfl
    | cons c cs =>
      obtain rfl := hend c rfl
      -- The end of the line leads back to code as it would in code.
      have hcode : Scan.step .code '\x00' '\n' = (.code, '\n') := rfl
      have hcomment : Scan.step .lineComment previous '\n' = (.code, '\n') := by
        simp [Scan.step]
      rw [List.nil_append, firstTooDeepFrom_same rfl hcomment hfits, tooDeep?,
        firstTooDeepFrom_same rfl hcode hfits]
  | cons c body ih =>
    obtain ⟨hc, hbody⟩ := List.forall_mem_cons.mp hbody
    have hstep : Scan.step .lineComment previous c = (.lineComment, c) := if_neg hc
    rw [List.cons_append, firstTooDeepFrom_same rfl hstep hfits]
    exact ih hbody c

/-- The scan stays in a block comment as long as no slash follows a star. -/
theorem firstTooDeepFrom_block {body : List Char} {previous : Char}
    (hbody : ¬ ['*', '/'] <:+: previous :: body) (hfits : depth ≤ limit) (cs : List Char) :
    firstTooDeepFrom limit .blockComment previous depth (body ++ cs) =
      firstTooDeepFrom limit .blockComment ((previous :: body).getLast (List.cons_ne_nil _ _)) depth cs := by
  -- By induction on the body, with the character before it.
  induction body generalizing previous with
  | nil => rfl
  | cons c body ih =>
    have hstep : Scan.step .blockComment previous c = (.blockComment, c) := by
      refine if_neg ?_
      rintro ⟨rfl, rfl⟩
      exact hbody ⟨[], body, rfl⟩
    rw [List.cons_append, firstTooDeepFrom_same rfl hstep hfits]
    exact ih fun hinside => hbody (hinside.trans (List.suffix_cons _ _).isInfix)

/-- A line comment does not change what the scan finds behind it. -/
theorem tooDeep?_line {body cs : List Char} (hbody : ∀ c ∈ body, c ≠ '\n')
    (hend : ∀ c ∈ cs.head?, c = '\n') (hfits : depth ≤ limit) :
    tooDeep? limit depth ('/' :: '/' :: (body ++ cs)) = tooDeep? limit depth cs := by
  have hfirst : Scan.step .code '\x00' '/' = (.code, '/') := by simp [Scan.step]
  have hsecond : Scan.step .code '/' '/' = (.lineComment, '\x00') := by simp [Scan.step]
  rw [tooDeep?, firstTooDeepFrom_same rfl hfirst hfits, firstTooDeepFrom_same rfl hsecond hfits,
    firstTooDeepFrom_line hbody hend hfits]

/-- Where a block comment opens, the scan forgets the star, so the star does not close it. -/
theorem tooDeep?_openBlock {body : List Char} (hbody : ¬ ['*', '/'] <:+: body)
    (hfits : depth ≤ limit) (cs : List Char) :
    tooDeep? limit depth ('/' :: '*' :: (body ++ cs)) =
      firstTooDeepFrom limit .blockComment (('\x00' :: body).getLast (List.cons_ne_nil _ _)) depth cs := by
  have hfirst : Scan.step .code '\x00' '/' = (.code, '/') := by simp [Scan.step]
  have hsecond : Scan.step .code '/' '*' = (.blockComment, '\x00') := by simp [Scan.step]
  have hinside : ¬ ['*', '/'] <:+: '\x00' :: body := by
    rw [List.infix_cons_iff]
    rintro (hfront | hinside)
    · exact absurd (List.prefix_cons_iff.mp hfront) (by simp)
    · exact hbody hinside
  rw [tooDeep?, firstTooDeepFrom_same rfl hfirst hfits, firstTooDeepFrom_same rfl hsecond hfits,
    firstTooDeepFrom_block hinside hfits]

/-- A block comment hides whatever stands before the first mark that closes it. -/
theorem tooDeep?_block {body : List Char} (hbody : ¬ ['*', '/'] <:+: body ++ ['*'])
    (hfits : depth ≤ limit) (cs : List Char) :
    tooDeep? limit depth ('/' :: '*' :: (body ++ '*' :: '/' :: cs)) = tooDeep? limit depth cs := by
  have hslash : Scan.step .blockComment '*' '/' = (.code, '\x00') := by simp [Scan.step]
  have happend : body ++ '*' :: '/' :: cs = (body ++ ['*']) ++ '/' :: cs := by simp
  rw [happend, tooDeep?_openBlock hbody hfits]
  show firstTooDeepFrom limit .blockComment (('\x00' :: body ++ ['*']).getLast _) depth _ = _
  rw [List.getLast_concat, firstTooDeepFrom_same rfl hslash hfits, tooDeep?]

/-- Blanks are plain. -/
theorem isPlain_of_isBlank {c : Char} (h : isBlank c) : IsPlain c := by
  simp only [isBlank, Bool.or_eq_true, beq_iff_eq] at h
  rcases h with ((rfl | rfl) | rfl) | rfl <;> decide

/-- A gap hides whatever stands in it. -/
theorem Gap.tooDeep?_eq {cs rest : List Char} (hgap : Gap cs rest) (hfits : depth ≤ limit) :
    tooDeep? limit depth cs = tooDeep? limit depth rest := by
  induction hgap with
  | none => rfl
  | blank hc _ ih => exact ((isPlain_of_isBlank hc).tooDeep?_cons hfits).trans ih
  | line hbody hend _ ih => exact (tooDeep?_line hbody hend hfits).trans ih
  | block hbody _ ih => exact (tooDeep?_block hbody hfits _).trans ih

/-! ### Tokens -/

/-- How many containers are open after a token. -/
def Token.depthAfter (t : Token) (depth : Nat) : Nat :=
  match t with
  | .mark c => Scan.depthAfter .code c depth
  | _ => depth

/-- Solid characters are plain, so no token but a bracket or a string matters to the scan. -/
theorem isPlain_of_isSolid {c : Char} (h : isSolid c) : IsPlain c := by
  refine ⟨?_, ?_, fun hc => ?_, fun hc => ?_⟩
  · rintro rfl
    exact absurd h (by decide)
  · rintro rfl
    exact absurd h (by decide)
  · simp only [isOpening, Bool.or_eq_true, beq_iff_eq] at hc
    rcases hc with rfl | rfl <;> exact absurd h (by decide)
  · simp only [isClosing, Bool.or_eq_true, beq_iff_eq] at hc
    rcases hc with rfl | rfl <;> exact absurd h (by decide)

/-- Of a token the scan sees at most that a container opens or closes. -/
theorem Token.At.tooDeep?_eq {t : Token} {cs rest : List Char} (h : t.At cs rest)
    (hfits : depth ≤ limit) :
    tooDeep? limit depth cs =
      if limit < t.depthAfter depth then some cs else tooDeep? limit (t.depthAfter depth) rest := by
  obtain ⟨w, hw, rfl, -⟩ := h
  by_cases hmark : t.class = .mark
  · obtain ⟨c, rfl⟩ := Token.exists_mark_of_class hmark
    cases hw with
    | mark hc =>
      have hcode : marks.all fun c => decide (c ≠ '"' ∧ c ≠ '/') := by decide
      obtain ⟨hquote, hslash⟩ := of_decide_eq_true (List.all_eq_true.mp hcode c hc)
      exact tooDeep?_cons hquote (noComment_of_ne hslash rest)
  · -- A string is hidden as a whole, and any other token is plain.
    have hdepth : t.depthAfter depth = depth := by
      cases t <;> first | rfl | exact absurd rfl hmark
    rw [hdepth, if_neg (Nat.not_lt.mpr hfits)]
    by_cases hstring : t.class = .string
    · obtain ⟨raw, rfl⟩ := Token.exists_string_of_class hstring
      cases hw with
      | string hs =>
        obtain ⟨body, hbody, rfl⟩ := hs
        rw [List.cons_append, List.cons_append, List.append_assoc]
        exact tooDeep?_string hbody.quoted hfits rest
    · exact tooDeep?_append (fun c hc => isPlain_of_isSolid (hw.solid hstring hmark c hc)) hfits rest

/-- Never more than `limit` containers are open between the tokens, with `depth` open at first. -/
def Fits (limit : Nat) : Nat → List Token → Prop
  | depth, [] => depth ≤ limit
  | depth, t :: ts => depth ≤ limit ∧ Fits limit (t.depthAfter depth) ts

/-- Where tokens fit, they do so from the start. -/
theorem Fits.le {ts : List Token} (h : Fits limit depth ts) : depth ≤ limit := by
  cases ts with
  | nil => exact h
  | cons t ts => exact h.1

/-- The scan counts what is open between the tokens of a text. -/
theorem Lexes.clear_iff {cs : List Char} {ts : List Token} (h : Lexes cs ts)
    (hfits : depth ≤ limit) : Clear limit depth cs ↔ Fits limit depth ts := by
  -- By induction on the tokens, with the containers that are open in front of each.
  induction h generalizing depth with
  | done hgap =>
    rw [Clear, hgap.tooDeep?_eq hfits]
    exact iff_of_true clear_nil hfits
  | @token _ _ _ t _ hgap hat _ ih =>
    rw [Clear, hgap.tooDeep?_eq hfits, hat.tooDeep?_eq hfits, Fits, and_iff_right hfits]
    by_cases hlt : limit < t.depthAfter depth
    · rw [if_pos hlt]
      exact iff_of_false nofun fun h => absurd h.le (Nat.not_le.mpr hlt)
    · rw [if_neg hlt]
      exact ih (Nat.not_lt.mp hlt)

/-- How many containers are open after tokens. -/
def openAfter (depth : Nat) (ts : List Token) : Nat :=
  ts.foldl (fun depth t => t.depthAfter depth) depth

/-- The token that goes beyond the limit is an opening bracket, and the limit has been reached before it.
-/
theorem exists_mark_of_depthAfter {t : Token} (hfits : depth ≤ limit)
    (h : limit < t.depthAfter depth) : ∃ c, t = .mark c ∧ isOpening c ∧ depth = limit := by
  cases t with
  | mark c =>
    rw [Token.depthAfter, Scan.depthAfter] at h
    split at h
    · next hc => exact ⟨c, rfl, hc, by omega⟩
    · split at h <;> omega
  | _ => exact absurd h (Nat.not_lt.mpr hfits)

/-- Among the tokens of a text, with `depth` containers open in front of them, the mark `c` with `rest`
after it is the first that opens one more than `limit`: `limit` are open where it stands, and nowhere
before it are there more. -/
def FirstBeyond (limit depth : Nat) (cs : List Char) (ts : List Token) (c : Char) (rest : List Char) :
    Prop :=
  ∃ before after mid, ts = before ++ .mark c :: after ∧ isOpening c ∧ Scans cs before mid ∧
    skip mid = c :: rest ∧ Fits limit depth before ∧ openAfter depth before = limit

/-- Where the scan stops in a sequence of tokens, a mark opens one container too many. -/
theorem Lexes.exists_firstBeyond {cs found : List Char} {ts : List Token} (h : Lexes cs ts)
    (hfits : depth ≤ limit) (hfound : tooDeep? limit depth cs = some found) :
    ∃ c rest, found = c :: rest ∧ FirstBeyond limit depth cs ts c rest := by
  -- By induction on the tokens: the scan stops at the first of them, or goes on behind it.
  induction h generalizing depth with
  | done hgap =>
    rw [hgap.tooDeep?_eq hfits] at hfound
    cases hfound
  | @token cs mid rest t ts hgap hat _ ih =>
    rw [hgap.tooDeep?_eq hfits, hat.tooDeep?_eq hfits] at hfound
    have hskip : skip cs = mid := by rw [hgap.skip_eq, hat.skip_eq]
    by_cases hlt : limit < t.depthAfter depth
    · rw [if_pos hlt] at hfound
      obtain rfl := Option.some.inj hfound
      obtain ⟨c, rfl, hc, hdepth⟩ := exists_mark_of_depthAfter hfits hlt
      obtain ⟨-, hmid⟩ := Token.at_mark_iff.mp hat
      exact ⟨c, rest, hmid, [], ts, cs, rfl, hc, rfl, hskip.trans hmid, hfits, hdepth⟩
    · rw [if_neg hlt] at hfound
      obtain ⟨c, rest', hfront, before, after, mid', rfl, hc, hscans, hend, hbefore, hopen⟩ :=
        ih (Nat.not_lt.mp hlt) hfound
      refine ⟨c, rest', hfront, t :: before, after, mid', rfl, hc, ⟨rest, ?_, hscans⟩, hend,
        ⟨hfits, hbefore⟩, hopen⟩
      rwa [hskip]

/-! ### Trees -/

namespace Tree

mutual

/-- A value opens as many containers inside each other as its depth says, and closes all of them. -/
theorem fits_value : ∀ (v : Value) {depth : Nat} {ts : List Token},
    Fits limit depth (v.tokens ++ ts) ↔ depth + v.depth ≤ limit ∧ Fits limit depth ts
  | .string _, _, _ | .number _, _, _ | .word _, _, _ =>
    ⟨fun h => ⟨h.1, h.2⟩, fun h => ⟨h.1, h.2⟩⟩
  -- The items are one level down, with one container more open.
  | .array items, depth, ts => by
    rw [Value.depth, ← Nat.add_assoc, Nat.add_right_comm, ← fits_items items]
    exact and_iff_right_of_imp fun h => Nat.le_of_succ_le h.le
  | .object ms, depth, ts => by
    rw [Value.depth, ← Nat.add_assoc, Nat.add_right_comm, ← fits_members ms]
    exact and_iff_right_of_imp fun h => Nat.le_of_succ_le h.le

/-- The items of an array fit if the deepest of them does, and leave behind the depth outside of it. -/
theorem fits_items : ∀ (vs : List Value) {depth : Nat} {ts : List Token},
    Fits limit (depth + 1) (itemTokens vs ++ ts) ↔
      depth + 1 + itemsDepth vs ≤ limit ∧ Fits limit depth ts
  | [], _, _ => Iff.rfl
  | v :: vs, depth, ts => by
    rw [itemTokens, List.append_assoc, fits_value v, fits_moreItems vs, itemsDepth, ← and_assoc]
    exact and_congr_left' (by omega)

/-- The same behind the first comma. -/
theorem fits_moreItems : ∀ (vs : List Value) {depth : Nat} {ts : List Token},
    Fits limit (depth + 1) (moreItemTokens vs ++ ts) ↔
      depth + 1 + itemsDepth vs ≤ limit ∧ Fits limit depth ts
  | [], _, _ => Iff.rfl
  | v :: vs, depth, ts => by
    -- The item closes what it opens, so the next one begins where it began.
    have hvalue : Fits limit (depth + 1) (v.tokens ++ (moreItemTokens vs ++ ts)) ↔ _ := fits_value v
    have hmore : Fits limit (depth + 1) (moreItemTokens vs ++ ts) ↔ _ := fits_moreItems vs
    rw [moreItemTokens, List.cons_append, List.append_assoc, itemsDepth]
    show depth + 1 ≤ limit ∧ Fits limit (depth + 1) (v.tokens ++ (moreItemTokens vs ++ ts)) ↔ _
    rw [hvalue, hmore, ← and_assoc, ← and_assoc]
    exact and_congr_left' (by omega)

/-- The members of an object fit if the deepest of them does, as items do. -/
theorem fits_members : ∀ (ms : List (List Char × Value)) {depth : Nat} {ts : List Token},
    Fits limit (depth + 1) (memberTokens ms ++ ts) ↔
      depth + 1 + membersDepth ms ≤ limit ∧ Fits limit depth ts
  | [], _, _ => Iff.rfl
  | (name, v) :: ms, depth, ts => by
    have hvalue : Fits limit (depth + 1) (v.tokens ++ (moreMemberTokens ms ++ ts)) ↔ _ :=
      fits_value v
    have hmore : Fits limit (depth + 1) (moreMemberTokens ms ++ ts) ↔ _ := fits_moreMembers ms
    rw [memberTokens, List.cons_append, List.cons_append, List.append_assoc, membersDepth]
    -- The name and the colon leave the depth as it is.
    show depth + 1 ≤ limit ∧ depth + 1 ≤ limit ∧
      Fits limit (depth + 1) (v.tokens ++ (moreMemberTokens ms ++ ts)) ↔ _
    rw [hvalue, hmore, ← and_assoc, ← and_assoc, ← and_assoc]
    exact and_congr_left' (by omega)

theorem fits_moreMembers : ∀ (ms : List (List Char × Value)) {depth : Nat} {ts : List Token},
    Fits limit (depth + 1) (moreMemberTokens ms ++ ts) ↔
      depth + 1 + membersDepth ms ≤ limit ∧ Fits limit depth ts
  | [], _, _ => Iff.rfl
  | (name, v) :: ms, depth, ts => by
    have hvalue : Fits limit (depth + 1) (v.tokens ++ (moreMemberTokens ms ++ ts)) ↔ _ :=
      fits_value v
    have hmore : Fits limit (depth + 1) (moreMemberTokens ms ++ ts) ↔ _ := fits_moreMembers ms
    rw [moreMemberTokens, List.cons_append, List.cons_append, List.cons_append, List.append_assoc,
      membersDepth]
    show depth + 1 ≤ limit ∧ depth + 1 ≤ limit ∧ depth + 1 ≤ limit ∧
      Fits limit (depth + 1) (v.tokens ++ (moreMemberTokens ms ++ ts)) ↔ _
    rw [hvalue, hmore, ← and_assoc, ← and_assoc, ← and_assoc, ← and_assoc]
    exact and_congr_left' (by omega)

end

/-- A body opens its own container first. -/
theorem fits_body (ms : List (List Char × Value)) {ts : List Token} :
    Fits limit 0 (.mark '\x7b' :: (memberTokens ms ++ ts)) ↔
      membersDepth ms + 1 ≤ limit ∧ Fits limit 0 ts := by
  rw [Nat.add_comm, ← Nat.zero_add 1, ← fits_members ms]
  exact and_iff_right (Nat.zero_le limit)

/-- Declarations fit if each of them does. -/
theorem fits_entries (es : List Entry) {ts : List Token} :
    Fits limit 0 (es.flatMap Entry.tokens ++ ts) ↔
      (∀ e ∈ es, e.depth ≤ limit) ∧ Fits limit 0 ts := by
  -- By induction on the entries, between which no container is open.
  induction es with
  | nil => exact (and_iff_right nofun).symm
  | cons e es ih =>
    have hzero := Nat.zero_le limit
    have hbody : Fits limit 0
        (.mark '\x7b' :: (memberTokens e.body ++ (es.flatMap Entry.tokens ++ ts))) ↔ _ :=
      fits_body e.body
    rw [List.flatMap_cons, List.append_assoc, List.forall_mem_cons, and_assoc, ← ih]
    rw [← Entry.depth] at hbody
    refine Iff.trans ⟨fun h => ?_, fun h => ?_⟩ hbody
    · exact h.2.2
    · exact ⟨hzero, hzero, h⟩

/-- Imports have no brackets. -/
theorem fits_imports (ps : List (List Char)) {ts : List Token} :
    Fits limit 0 (ps.flatMap importTokens ++ ts) ↔ Fits limit 0 ts := by
  -- By induction on the imports, each of which has three tokens.
  induction ps with
  | nil => exact Iff.rfl
  | cons p ps ih =>
    have hzero := Nat.zero_le limit
    rw [← ih]
    exact ⟨fun h => h.2.2.2, fun h => ⟨hzero, hzero, hzero, h⟩⟩

/-- So a block fits if its declarations do. -/
theorem fits_block (b : Block) {ts : List Token} :
    Fits limit 0 (b.tokens ++ ts) ↔ (∀ e ∈ b.entries, e.depth ≤ limit) ∧ Fits limit 0 ts := by
  rw [Block.tokens, List.append_assoc, fits_imports, fits_entries]

/-- Sections fit if all their declarations do. -/
theorem fits_sections (ss : List (List Char × Block)) :
    Fits limit 0 (ss.flatMap sectionTokens) ↔ ∀ s ∈ ss, ∀ e ∈ s.2.entries, e.depth ≤ limit := by
  -- By induction on the sections, between which no container is open.
  induction ss with
  | nil => exact iff_of_true (Nat.zero_le limit) nofun
  | cons s ss ih =>
    rw [List.forall_mem_cons, ← ih, ← fits_block]
    exact and_iff_right (Nat.zero_le limit)

/-- The containers that are open between the tokens of a document are those of its bodies. -/
theorem Document.fits_iff {d : Document} :
    Fits limit 0 d.tokens ↔ ∀ e ∈ d.entries, e.depth ≤ limit := by
  rw [Document.tokens, fits_block, fits_sections, Document.entries, List.forall_mem_append,
    List.forall_mem_flatMap]

/-- **The scan measures derivations.** It goes over a text that has a derivation without stopping
exactly if no body nests deeper than the limit. -/
theorem Document.Derives.firstTooDeep_eq_none_iff {d : Document} {text : List Char}
    (h : d.Derives text) :
    firstTooDeep limit text = none ↔ ∀ e ∈ d.entries, e.depth ≤ limit :=
  (h.lexes.clear_iff (Nat.zero_le limit)).trans Document.fits_iff

/-- A text that has a derivation is not refused for its brackets if no body nests too deep. -/
theorem Document.Derives.checkNesting_eq_ok {d : Document} {text : List Char}
    (h : d.Derives text) (hdepth : ∀ e ∈ d.entries, e.depth ≤ maxDepth) :
    checkNesting text = .ok () := by
  rw [checkNesting, h.firstTooDeep_eq_none_iff.mpr hdepth]

end Tree

end ModelText.Grammar
