import ModelText.Proofs.JsonReading
import ModelText.Proofs.Reformatting

/-!
# Bodies are JSON

The body of a declaration is what the JSON reader takes for the text of an object. A text that it
reads can stand after a kind and a path, and then it is parsed as the object that was read. A text
that is parsed in this place is read as the same object, if there are no comments in it, which JSON
does not know (`opensComment`), and if its containers nest no deeper than the reader goes, which is one
level less than the parser does (`parse_body_is_json`).
-/

namespace ModelText.Grammar

open Json.Reader (skipSpace isSpace)

/-! ### Texts without comments -/

/-- Whether a comment opens in a text outside of string literals: two slashes, or a slash and a star. -/
def opensComment : (inString : Bool) → List Char → Bool
  | _, [] => false
  | true, '\\' :: _ :: cs => opensComment true cs
  | true, c :: cs => opensComment (c != '"') cs
  | false, '"' :: cs => opensComment true cs
  | false, '/' :: c :: cs => c == '/' || c == '*' || opensComment false (c :: cs)
  | false, _ :: cs => opensComment false cs

/-- Where no string and no comment begins, the search goes on. -/
theorem opensComment_cons {c : Char} (hquote : c ≠ '"') (hslash : c ≠ '/') (cs : List Char) :
    opensComment false (c :: cs) = opensComment false cs := by
  rw [opensComment]
  · exact hquote
  · rintro _ _ rfl
    exact absurd rfl hslash

/-- So it does over a text of plain characters. -/
theorem opensComment_append {w cs : List Char} (hw : ∀ c ∈ w, IsPlain c) :
    opensComment false (w ++ cs) = opensComment false cs := by
  induction w with
  | nil => rfl
  | cons c w ih =>
    obtain ⟨hc, hw⟩ := List.forall_mem_cons.mp hw
    rw [List.cons_append, opensComment_cons hc.quote hc.slash, ih hw]

/-- In a string it goes on over all but quotes and escapes. -/
theorem opensComment_inString {c : Char} (hquote : c ≠ '"') (hescape : c ≠ '\\') (cs : List Char) :
    opensComment true (c :: cs) = opensComment true cs := by
  have hstring : (c != '"') = true := bne_iff_ne.mpr hquote
  rw [opensComment, hstring]
  rintro _ _ rfl
  exact absurd rfl hescape

/-- Whatever stands in a string literal opens no comment. -/
theorem opensComment_stringBody {body cs : List Char} (h : IsStringBody body) :
    opensComment true (body ++ '"' :: cs) = opensComment false cs := by
  -- By induction on what stands in the string.
  induction h with
  | nil => rfl
  | plain hquote hescape _ ih => rw [List.cons_append, opensComment_inString hquote hescape, ih]
  | letter _ _ ih => exact ih
  | @number a b c d ds hhex _ ih =>
    have hplain : ∀ x ∈ [a, b, c, d], x ≠ '"' ∧ x ≠ '\\' := fun x hx =>
      plain_of_hexValue? (hexValue?_of_hexValues? hhex x hx)
    simp only [List.forall_mem_cons, List.not_mem_nil, false_implies, implies_true,
      and_true] at hplain
    obtain ⟨ha, hb, hc, hd⟩ := hplain
    simp only [List.cons_append]
    rw [opensComment, opensComment_inString ha.1 ha.2, opensComment_inString hb.1 hb.2,
      opensComment_inString hc.1 hc.2, opensComment_inString hd.1 hd.2, ih]

/-- No comment opens in a token. -/
theorem Token.At.opensComment_eq {t : Token} {cs rest : List Char} (h : t.At cs rest) :
    opensComment false cs = opensComment false rest := by
  obtain ⟨w, hw, rfl, -⟩ := h
  -- A string is the only token in which a slash can stand. The marks are tried one by one, and all other
  -- tokens are solid.
  by_cases hstring : t.class = .string
  · obtain ⟨raw, rfl⟩ := Token.exists_string_of_class hstring
    cases hw with
    | string hs =>
      obtain ⟨body, hbody, rfl⟩ := hs
      rw [List.cons_append, List.cons_append, List.append_assoc]
      exact opensComment_stringBody hbody
  · by_cases hmark : t.class = .mark
    · obtain ⟨c, rfl⟩ := Token.exists_mark_of_class hmark
      cases hw with
      | mark hc =>
        simp only [marks, List.mem_cons, List.not_mem_nil, or_false] at hc
        rcases hc with rfl | rfl | rfl | rfl | rfl | rfl | rfl <;> rfl
    · exact opensComment_append fun c hc => isPlain_of_isSolid (hw.solid hstring hmark c hc)

/-- White space opens no comment. -/
theorem opensComment_skipSpace (cs : List Char) :
    opensComment false (skipSpace cs) = opensComment false cs := by
  induction cs with
  | nil => rfl
  | cons c cs ih =>
    by_cases hc : isSpace c
    · have hplain := isPlain_of_isBlank (isSpace_eq_isBlank c ▸ hc)
      have hskip : skipSpace (c :: cs) = skipSpace cs := List.dropWhile_cons_of_pos hc
      rw [hskip, ih, opensComment_cons hplain.quote hplain.slash]
    · have hskip : skipSpace (c :: cs) = c :: cs := List.dropWhile_cons_of_neg hc
      rw [hskip]

/-- Without comments a gap is white space. -/
theorem skip_eq_skipSpace {cs : List Char} (h : opensComment false cs = false) :
    skip cs = skipSpace cs := by
  have hsame : isSpace = isBlank := funext isSpace_eq_isBlank
  rw [← opensComment_skipSpace] at h
  -- A gap would go on behind the white space only with a comment.
  have hnone : afterComment (skipSpace cs) = none := by
    unfold afterComment
    split
    · next heq =>
      rw [heq] at h
      cases h
    · next heq =>
      rw [heq] at h
      cases h
    · rfl
  rw [skipSpace, hsame] at hnone ⊢
  exact skip_eq_dropWhile hnone

/-- The tokens of a text without comments have only white space between them. -/
theorem Scans.spaced {cs rest : List Char} {ts : List Token} (h : Scans cs ts rest)
    (hfree : opensComment false cs = false) :
    Spaced cs ts rest ∧ opensComment false rest = false := by
  -- By induction on the tokens, of which none opens a comment for the next one.
  induction ts generalizing cs with
  | nil =>
    obtain rfl := scans_nil.mp h
    exact ⟨rfl, hfree⟩
  | cons t ts ih =>
    obtain ⟨mid, hat, hmore⟩ := h
    rw [skip_eq_skipSpace hfree] at hat
    have hmid : opensComment false mid = false := by
      rw [← hat.opensComment_eq, opensComment_skipSpace, hfree]
    obtain ⟨hspaced, hrest⟩ := ih hmore hmid
    exact ⟨⟨mid, hat, hspaced⟩, hrest⟩

/-- **White space and comments.** A text without comments is the sequence of some tokens exactly if
these follow each other with white space between them. -/
theorem lexes_iff_spaced {cs : List Char} {ts : List Token} (hfree : opensComment false cs = false) :
    Lexes cs ts ↔ ∃ rest, Spaced cs ts rest ∧ skipSpace rest = [] := by
  rw [lexes_iff]
  refine ⟨fun ⟨rest, hscan, hend⟩ => ?_, fun ⟨rest, hscan, hend⟩ => ⟨rest, hscan.scans, ?_⟩⟩
  · obtain ⟨hspaced, hrest⟩ := hscan.spaced hfree
    exact ⟨rest, hspaced, skip_eq_skipSpace hrest ▸ hend⟩
  · rw [(gap_skipSpace rest).skip_eq, hend, skip_nil]

/-! ### One declaration -/

/-- A blank in front of a text does not change its tokens. -/
theorem lexes_cons_of_isBlank {c : Char} (hc : isBlank c) {cs : List Char} {ts : List Token} :
    Lexes (c :: cs) ts ↔ Lexes cs ts := by
  refine ⟨fun h => ?_, .of_gap (.blank hc (.none cs))⟩
  obtain ⟨rest, hscan, hend⟩ := lexes_iff.mp h
  cases ts with
  | nil =>
    obtain rfl := scans_nil.mp hscan
    rw [skip_cons_of_isBlank hc] at hend
    exact lexes_iff.mpr ⟨cs, rfl, hend⟩
  | cons t ts =>
    rw [scans_iff_of_skip_eq (List.cons_ne_nil t ts) (skip_cons_of_isBlank hc cs)] at hscan
    exact lexes_iff.mpr ⟨rest, hscan, hend⟩

/-- A name and a blank after it in front of a text. -/
theorem lexes_name_iff {w n cs : List Char} {ts : List Token} (hw : IsName w) :
    Lexes (w ++ ' ' :: cs) (.name n :: ts) ↔ n = w ∧ Lexes cs ts := by
  have hat : (Token.name w).At (w ++ ' ' :: cs) (' ' :: cs) :=
    Token.Spelled.at_of_breaks (.name hw) (breaks_cons (by decide) cs)
  have hblank : Lexes (' ' :: cs) ts ↔ Lexes cs ts := lexes_cons_of_isBlank rfl
  rw [← hblank]
  refine ⟨fun h => ?_, ?_⟩
  · obtain ⟨rest, ⟨mid, hn, hscan⟩, hend⟩ := lexes_iff.mp h
    rw [hat.skip_eq] at hn
    -- At one place there is one token, so the name is the one that stands there.
    obtain ⟨rfl, hspelled⟩ := hat.unique hn
    cases hspelled (.name hw)
    exact ⟨rfl, lexes_iff.mpr ⟨rest, hscan, hend⟩⟩
  · rintro ⟨rfl, h⟩
    exact .token (.none _) hat h

/-- **One declaration.** A text is parsed as one declaration and nothing else exactly if it is the text
of the derivation of a declaration that means it. -/
theorem parse_declaration_iff {text : String} {d : Declaration} :
    parse text false = .ok [.declaration d] ↔
      ∃ e : Tree.Entry, Lexes text.toList e.tokens ∧ Path.isWord e.kind ∧ e.depth ≤ maxDepth ∧
        e.Means d := by
  rw [parse_eq_ok]
  refine ⟨?_, ?_⟩
  · rintro ⟨doc, hderives, hdepth, ds, hds, hes⟩
    have hdeclarations := congrArg Element.declarations hes
    have hindexes := congrArg Element.sectionIndexes hes
    rw [declarations_append_index] at hdeclarations
    rw [sectionIndexes_append_index] at hindexes
    obtain rfl : [d] = ds := hdeclarations
    -- Without an index there is no header and no import, so the declaration is all there is.
    have hnone : doc.index? = none := Option.toList_eq_nil_iff.mp hindexes.symm
    obtain ⟨hsections, himports⟩ := Tree.Document.index?_eq_none.mp hnone
    have htokens : doc.tokens = doc.entries.flatMap Tree.Entry.tokens := by
      simp [Tree.Document.tokens, Tree.Block.tokens, Tree.Document.entries, hsections, himports]
    obtain ⟨e, entries, hmeans, hnil, hentries⟩ := List.forall₂_cons_right_iff.mp hds
    cases hnil
    have he : e ∈ doc.entries := hentries ▸ List.mem_singleton_self e
    have hlexes := hderives.lexes
    rw [htokens, hentries, List.flatMap_singleton] at hlexes
    exact ⟨e, hlexes, hderives.kinds e he, hdepth e he, hmeans⟩
  · rintro ⟨e, hlexes, hkind, hdepth, hmeans⟩
    have hentries : (⟨⟨[], [e]⟩, []⟩ : Tree.Document).entries = [e] := rfl
    have htokens : (⟨⟨[], [e]⟩, []⟩ : Tree.Document).tokens = e.tokens := by
      simp [Tree.Document.tokens, Tree.Block.tokens]
    refine ⟨⟨⟨[], [e]⟩, []⟩, ⟨htokens ▸ hlexes, ?_⟩, ?_, [d], ?_, rfl⟩
    · rw [hentries]
      exact List.forall_mem_singleton.mpr hkind
    · rw [hentries]
      exact List.forall_mem_singleton.mpr hdepth
    · rw [hentries]
      exact .cons hmeans .nil

/-! ### Bodies -/

section Body

variable {kind path text : String}

/-- A declaration whose kind and path are given is parsed by its body. -/
theorem parse_body_iff (hkind : Path.isIdentifier kind) (hpath : Path.isValid path)
    {d : Declaration} :
    parse (kind ++ " " ++ path ++ " " ++ text) false = .ok [.declaration d] ↔
      ∃ ms, Lexes text.toList (.mark '\x7b' :: Tree.memberTokens ms) ∧
        Tree.membersDepth ms + 1 ≤ maxDepth ∧
        (⟨kind.toList, path.toList, ms⟩ : Tree.Entry).Means d := by
  have htext : (kind ++ " " ++ path ++ " " ++ text).toList =
      kind.toList ++ ' ' :: (path.toList ++ ' ' :: text.toList) := by
    simp [String.toList_append]
  have hlexes : ∀ e : Tree.Entry,
      Lexes (kind.toList ++ ' ' :: (path.toList ++ ' ' :: text.toList)) e.tokens ↔
        e.kind = kind.toList ∧ e.path = path.toList ∧
          Lexes text.toList (.mark '\x7b' :: Tree.memberTokens e.body) := fun e => by
    rw [Tree.Entry.tokens, lexes_name_iff (.word hkind), lexes_name_iff (Path.isValid_iff.mp hpath)]
  rw [parse_declaration_iff, htext]
  simp only [hlexes]
  -- The kind and the path are the names that stand there, so only the body is open.
  refine ⟨?_, ?_⟩
  · rintro ⟨⟨_, _, ms⟩, ⟨rfl, rfl, hbody⟩, -, hdepth, hmeans⟩
    exact ⟨ms, hbody, hdepth, hmeans⟩
  · rintro ⟨ms, hbody, hdepth, hmeans⟩
    exact ⟨⟨kind.toList, path.toList, ms⟩, ⟨rfl, rfl, hbody⟩, hkind, hdepth, hmeans⟩

/-- The text of a body nests as deep as its derivation does. -/
theorem firstTooDeep_body_iff {cs : List Char} {ms : List (List Char × Tree.Value)} {limit : Nat}
    (h : Lexes cs (.mark '\x7b' :: Tree.memberTokens ms)) :
    firstTooDeep limit cs = none ↔ Tree.membersDepth ms + 1 ≤ limit := by
  have hbody : Fits limit 0 (.mark '\x7b' :: (Tree.memberTokens ms ++ [])) ↔ _ :=
    Tree.fits_body ms
  rw [List.append_nil] at hbody
  exact (h.clear_iff (Nat.zero_le limit)).trans (hbody.trans (and_iff_left (Nat.zero_le limit)))

end Body

/-- **Bodies.** After an identifier and a path, a text that the JSON reader takes for an object is parsed
as one declaration with that kind, that path and that object. If such a text is parsed as one declaration
and nothing else, there are no comments in it and it nests no deeper than the reader goes, then it is
read as the same object. -/
theorem parse_body_is_json (kind path text : String) (hkind : Path.isIdentifier kind)
    (hpath : Path.isValid path) :
    (∀ body, Json.Object.read text.toList = .ok body →
      parse (kind ++ " " ++ path ++ " " ++ text) false =
        .ok [.declaration { kind, path, body }]) ∧
    (opensComment false text.toList = false → firstTooDeep 127 text.toList = none →
      ∀ d, parse (kind ++ " " ++ path ++ " " ++ text) false = .ok [.declaration d] →
        d.kind = kind ∧ d.path = path ∧ Json.Object.read text.toList = .ok d.body) := by
  refine ⟨fun body hread => ?_, fun hfree hdepth d hparse => ?_⟩
  · obtain ⟨ms, rest, hscan, hend, hdepth, hmeans⟩ := read_object_eq_ok.mp hread
    have hskip : skip rest = [] := by
      rw [(gap_skipSpace rest).skip_eq, hend, skip_nil]
    have hlexes := lexes_iff.mpr ⟨rest, hscan.scans, hskip⟩
    -- The parser goes one level deeper than the reader.
    have hlimit : Json.Reader.maxNesting ≤ maxDepth := by decide
    refine (parse_body_iff hkind hpath).mpr ⟨ms, hlexes, hdepth.trans hlimit, ?_⟩
    exact ⟨String.ofList_toList.symm, String.ofList_toList.symm, hmeans, rfl⟩
  · obtain ⟨ms, hlexes, -, hmeans⟩ := (parse_body_iff hkind hpath).mp hparse
    obtain ⟨rest, hscan, hend⟩ := (lexes_iff_spaced hfree).mp hlexes
    refine ⟨hmeans.kind.trans String.ofList_toList, hmeans.path.trans String.ofList_toList, ?_⟩
    have hnesting := (firstTooDeep_body_iff hlexes).mp hdepth
    exact read_object_eq_ok.mpr ⟨ms, rest, hscan, hend, hnesting, hmeans.body⟩

/-- An escape in a name, a member that is set again, and two slashes in a string. -/
theorem parse_body_is_json_escape :
    let text := "\x7b\"\\u0041\": [null], \"A\"\t: \"//\"\x7d"
    let body := Json.Object.empty.insertString "A" "//"
    Json.Object.read text.toList = .ok body ∧
      parse ("Data" ++ " " ++ "a::B" ++ " " ++ text) false =
        .ok [.declaration { kind := "Data", path := "a::B", body }] ∧
      (opensComment false text.toList = false ∧ firstTooDeep 127 text.toList = none) ∧
      ∀ d, parse ("Data" ++ " " ++ "a::B" ++ " " ++ text) false = .ok [.declaration d] →
        d.kind = "Data" ∧ d.path = "a::B" ∧ Json.Object.read text.toList = .ok d.body := by
  intro text body
  have hread : Json.Object.read text.toList = .ok body := by
    simp only [text, body]
    cbv
  have hfree : opensComment false text.toList = false := by decide +kernel
  have hdepth : firstTooDeep 127 text.toList = none := by decide +kernel
  obtain ⟨hparse, hback⟩ := parse_body_is_json "Data" "a::B" text (by decide) (by decide)
  exact ⟨hread, hparse body hread, ⟨hfree, hdepth⟩, hback hfree hdepth⟩

end ModelText.Grammar
