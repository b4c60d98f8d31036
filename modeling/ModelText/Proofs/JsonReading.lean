import Mathlib.Data.List.DropRight
import ModelText.Proofs.Insertion
import ModelText.Proofs.JsonScalars
import ModelText.Proofs.Value

/-!
# The JSON reader and derivations

The JSON reader knows no tokens. All the same, what it reads as a value is the text of a derivation of
values with only white space between the tokens (`Spaced`), and what it returns is what the derivation
means; and it reads every such text, if the containers do not nest deeper than it may go
(`value_reads`). A text is read as an object exactly if it is a sequence of the tokens of an object,
spaced in this way (`read_object_eq_ok`).

A list is gone through by a recursion that is bounded by the length of the text. `Listed` tells what a
list is without the bound, and without the failures.
-/

namespace ModelText.Grammar

open Json.Reader

/-! ### White space -/

/-- The JSON reader and the grammar agree on what a blank is. -/
theorem isSpace_eq_isBlank (c : Char) : isSpace c = isBlank c := by
  rw [isSpace, isBlank, Bool.or_right_comm (c == ' '), Bool.or_right_comm (c == ' ' || c == '\t')]

/-- White space is a gap. -/
theorem gap_skipSpace (cs : List Char) : Gap cs (skipSpace cs) := by
  have hsame : isSpace = isBlank := funext isSpace_eq_isBlank
  rw [skipSpace, hsame]
  exact gap_dropWhile cs

/-- After the blanks there is none left. -/
@[simp] theorem skipSpace_skipSpace (cs : List Char) : skipSpace (skipSpace cs) = skipSpace cs :=
  List.dropWhile_idempotent isSpace cs

/-- White space in front of a text that breaks breaks it too. -/
theorem Breaks.of_skipSpace {cs : List Char} (h : Breaks (skipSpace cs)) : Breaks cs := by
  cases cs with
  | nil => exact breaks_nil
  | cons c cs =>
    by_cases hc : isSpace c
    · rw [isSpace_eq_isBlank] at hc
      exact (Separator.blank hc .nil).head
    · have hskip : skipSpace (c :: cs) = c :: cs := List.dropWhile_cons_of_neg hc
      rwa [hskip] at h

/-- If what comes after the blanks breaks a token, so does what comes before them. -/
theorem breaks_of_skipSpace_cons {c : Char} {cs rest : List Char} (h : skipSpace cs = c :: rest)
    (hc : ¬ isSolid c) : Breaks cs := by
  refine Breaks.of_skipSpace ?_
  rw [h]
  exact breaks_cons hc rest

/-- The text begins with the tokens, with only white space before each, and `rest` follows right after
the last of them. -/
def Spaced : List Char → List Token → List Char → Prop
  | cs, [], rest => cs = rest
  | cs, t :: ts, rest => ∃ mid, t.At (skipSpace cs) mid ∧ Spaced mid ts rest

/-- The tokens are met one after another, with blanks and no comments between them. -/
theorem spaced_cons {cs rest : List Char} {t : Token} {ts : List Token} :
    Spaced cs (t :: ts) rest ↔ ∃ mid, t.At (skipSpace cs) mid ∧ Spaced mid ts rest := Iff.rfl

/-- They may be cut anywhere. -/
theorem spaced_append {cs rest : List Char} {ts us : List Token} :
    Spaced cs (ts ++ us) rest ↔ ∃ mid, Spaced cs ts mid ∧ Spaced mid us rest := by
  -- By induction on the tokens before the cut.
  induction ts generalizing cs with
  | nil => exact ⟨fun h => ⟨cs, rfl, h⟩, fun ⟨_, hcs, h⟩ => hcs ▸ h⟩
  | cons t ts ih =>
    rw [List.cons_append, spaced_cons]
    simp only [ih, spaced_cons]
    refine ⟨fun ⟨a, ha, b, hb, hc⟩ => ⟨b, ⟨a, ha, hb⟩, hc⟩, fun ⟨b, ⟨a, ha, hb⟩, hc⟩ => ?_⟩
    exact ⟨a, ha, b, hb, hc⟩

/-- The blanks in front of the first token may be skipped. -/
theorem spaced_skipSpace {cs rest : List Char} {ts : List Token} (hts : ts ≠ []) :
    Spaced (skipSpace cs) ts rest ↔ Spaced cs ts rest := by
  cases ts with
  | nil => exact absurd rfl hts
  | cons t ts => rw [spaced_cons, spaced_cons, skipSpace_skipSpace]

/-- A mark is met where its character is. -/
theorem spaced_mark {c : Char} (hc : c ∈ marks) {cs rest : List Char} {ts : List Token} :
    Spaced cs (.mark c :: ts) rest ↔ ∃ mid, skipSpace cs = c :: mid ∧ Spaced mid ts rest := by
  simp only [spaced_cons, Token.at_mark_iff, hc, true_and]

/-- White space is skipped as any gap is. -/
theorem Spaced.scans {cs rest : List Char} {ts : List Token} (h : Spaced cs ts rest) :
    Scans cs ts rest := by
  induction ts generalizing cs with
  | nil => exact h
  | cons t ts ih =>
    obtain ⟨mid, hat, h⟩ := h
    refine ⟨mid, ?_, ih h⟩
    rwa [(gap_skipSpace cs).skip_eq, hat.skip_eq]

/-! ### Scalars -/

section Value

variable {array object : Json.Reader Json} {cs rest : List Char} {j : Json}

/-- A value is read behind blanks as without them. -/
theorem valueWith_skipSpace (cs : List Char) :
    valueWith array object (skipSpace cs) = valueWith array object cs := by
  unfold valueWith
  rw [skipSpace_skipSpace]

/-- A text that begins with a scalar, which means `j` and has `rest` after it. -/
def ScalarAt (cs : List Char) (j : Json) (rest : List Char) : Prop :=
  ∃ v : Tree.Value, v.depth = 0 ∧ Spaced cs v.tokens rest ∧ v.Means j

/-- A token that is spelled there is a scalar, since what follows breaks it. -/
theorem ScalarAt.of_spelled {v : Tree.Value} {t : Token} {w : List Char} (hdepth : v.depth = 0)
    (htokens : v.tokens = [t]) (hw : t.Spelled w) (hmeans : v.Means j)
    (hcs : skipSpace cs = w ++ rest) (hrest : Breaks rest) : ScalarAt cs j rest := by
  refine ⟨v, hdepth, ?_, hmeans⟩
  rw [htokens]
  exact ⟨rest, hcs ▸ hw.at_of_breaks hrest, rfl⟩

/-- What is read as a string is one. -/
theorem ScalarAt.of_string {mid : List Char} {s : String} (hcs : skipSpace cs = '"' :: mid)
    (hread : string mid = .ok (s, rest)) (hrest : Breaks rest) : ScalarAt cs (.string s) rest := by
  obtain ⟨raw, hraw, htext⟩ := string_sound hread
  rw [htext] at hcs
  exact .of_spelled (v := .string raw) rfl rfl (.string hraw.isString) ⟨s, hraw, rfl⟩ hcs hrest

/-- What is read as a word is one of the literal words. -/
theorem ScalarAt.of_word {c : Char} {ws mid : List Char} (hmeans : WordMeans (c :: ws) j)
    (hcs : skipSpace cs = c :: mid) (hread : word ws mid = .ok ((), rest)) (hrest : Breaks rest) :
    ScalarAt cs j rest := by
  have hliteral : c :: ws ∈ literalWords := hmeans.mem_literalWords
  rw [word_eq_ok.mp hread] at hcs
  exact .of_spelled (v := .word (c :: ws)) rfl rfl (.word hliteral) hmeans hcs hrest

/-- What is read as a number is one, with its sign. -/
theorem ScalarAt.of_number (negative : Bool) {mid : List Char} {n : Json.Number}
    (hcs : skipSpace cs = (if negative then ['-'] else []) ++ mid)
    (hread : number negative mid = .ok (n, rest)) (hrest : Breaks rest) :
    ScalarAt cs (.number n) rest := by
  obtain ⟨p, hp, rfl, hvalue, rfl⟩ := number_sound hread
  have htext : skipSpace cs = p.text ++ rest := by
    simp only [hcs, NumberParts.text, List.append_assoc]
  have hmeans : NumberMeans p.text n := ⟨p, hp, rfl, hvalue⟩
  exact .of_spelled (v := .number p.text) rfl rfl (.number ⟨p, hp, rfl⟩) ⟨n, hmeans, rfl⟩ htext hrest

/-- What is read as a value is an array, an object or a scalar. -/
theorem valueWith_sound (h : valueWith array object cs = .ok (j, rest)) (hrest : Breaks rest) :
    (∃ mid, skipSpace cs = '[' :: mid ∧ array mid = .ok (j, rest)) ∨
      (∃ mid, skipSpace cs = '\x7b' :: mid ∧ object mid = .ok (j, rest)) ∨ ScalarAt cs j rest := by
  unfold valueWith at h
  -- One case for each first character that the reader knows: the two brackets, the quote, the three
  -- words, the sign and the digits.
  split at h
  · cases h
  · next mid hcs => exact .inl ⟨mid, hcs, h⟩
  · next mid hcs => exact .inr (.inl ⟨mid, hcs, h⟩)
  · next mid hcs =>
    obtain ⟨⟨s, _⟩, hread, e⟩ := bind_eq_ok.mp h
    cases e
    exact .inr (.inr (.of_string hcs hread hrest))
  · next mid hcs =>
    obtain ⟨⟨_, _⟩, hread, e⟩ := bind_eq_ok.mp h
    cases e
    exact .inr (.inr (.of_word .null hcs hread hrest))
  · next mid hcs =>
    obtain ⟨⟨_, _⟩, hread, e⟩ := bind_eq_ok.mp h
    cases e
    exact .inr (.inr (.of_word .true hcs hread hrest))
  · next mid hcs =>
    obtain ⟨⟨_, _⟩, hread, e⟩ := bind_eq_ok.mp h
    cases e
    exact .inr (.inr (.of_word .false hcs hread hrest))
  · next mid hcs =>
    obtain ⟨⟨n, _⟩, hread, e⟩ := bind_eq_ok.mp h
    cases e
    exact .inr (.inr (.of_number true hcs hread hrest))
  · next c mid _ _ _ _ _ _ _ hcs =>
    split at h
    · obtain ⟨⟨n, _⟩, hread, e⟩ := bind_eq_ok.mp h
      cases e
      exact .inr (.inr (.of_number false hcs hread hrest))
    · cases h

/-- The text of a scalar is read as what the scalar means. -/
theorem valueWith_complete {v : Tree.Value} (hdepth : v.depth = 0) (hscan : Spaced cs v.tokens rest)
    (hmeans : v.Means j) (hrest : Breaks rest) :
    valueWith array object cs = .ok (j, rest) := by
  rw [← valueWith_skipSpace]
  -- The first character of the token takes the reader to the case for it.
  cases v with
  | array | object => cases hdepth
  | string raw =>
    obtain ⟨mid, ⟨w, hw, hcs, -⟩, rfl⟩ := hscan
    obtain ⟨s, hs, rfl⟩ := hmeans
    cases hw with
    | string _ =>
      obtain ⟨cs', htext, hread⟩ := string_append hs mid
      rw [hcs, htext]
      exact bind_eq_ok.mpr ⟨(s, mid), hread, rfl⟩
  | number raw =>
    obtain ⟨mid, ⟨w, hw, hcs, -⟩, rfl⟩ := hscan
    obtain ⟨n, ⟨p, hp, rfl, hn⟩, rfl⟩ := hmeans
    cases hw with
    | number _ =>
      rw [hcs, valueWith_number hp]
      exact bind_eq_ok.mpr ⟨(n, mid), (number_eq_ok hp hrest).mpr ⟨hn, rfl⟩, rfl⟩
  | word raw =>
    obtain ⟨mid, ⟨w, hw, hcs, -⟩, rfl⟩ := hscan
    cases hw with
    | word _ =>
      rw [hcs]
      rcases hmeans with _ | _ | _ <;> rfl

end Value

/-! ### Lists -/

/-- A list up to its closing mark, given what its parts are: one part at least, and a comma between one
and the next. -/
inductive Listed {α : Type} (part : List Char → α → List Char → Prop) (close : Char) :
    List Char → List α → List Char → Prop
  | last {cs mid rest : List Char} {a : α} : part cs a mid → skipSpace mid = close :: rest →
      Listed part close cs [a] rest
  | more {cs mid mid' next rest : List Char} {c : Char} {a : α} {as : List α} : part cs a mid →
      skipSpace mid = ',' :: mid' → skipSpace mid' = c :: next → c ≠ close →
      Listed part close (c :: next) as rest → Listed part close cs (a :: as) rest

/-- Parts are read exactly where their tokens stand, if the text breaks after them. -/
def Reads {α β : Type} (part : List Char → α → List Char → Prop) (tok : β → List Token)
    (Mean : β → α → Prop) : Prop :=
  ∀ (cs rest : List Char) (a : α), skipSpace cs = cs → Breaks rest →
    (part cs a rest ↔ ∃ b, Spaced cs (tok b) rest ∧ Mean b a)

section Lists

variable {α β : Type} {part : List Char → α → List Char → Prop} {close : Char}
  {tok : β → List Token} {Mean : β → α → Prop}

/-- Where the blanks have been skipped there are none. -/
theorem skipSpace_eq_self {cs mid : List Char} (h : skipSpace cs = mid) : skipSpace mid = mid := by
  rw [← h, skipSpace_skipSpace]

/-- A text with a token has a first character after its white space. -/
theorem Spaced.exists_skipSpace {cs rest : List Char} {ts : List Token} (h : Spaced cs ts rest)
    (hts : ts ≠ []) : ∃ c next, skipSpace cs = c :: next := by
  cases ts with
  | nil => exact absurd rfl hts
  | cons t ts =>
    obtain ⟨mid, ⟨w, hw, hcs, -⟩, -⟩ := h
    obtain ⟨c, more, rfl, -⟩ := hw.exists_first
    exact ⟨c, more ++ mid, hcs⟩

/-- **Lists.** The parts of a list are told by their tokens if each part is. -/
theorem listed_iff (hclose : close = ']' ∨ close = '\x7d') (hpart : Reads part tok Mean)
    (hfirst : ∀ b cs rest, Spaced cs (tok b) rest → ∀ r, skipSpace cs ≠ close :: r)
    {cs rest : List Char} {as : List α} (hcs : skipSpace cs = cs) :
    Listed part close cs as rest ↔ ∃ b bs, Spaced cs (tok b ++ Tree.moreTokens close (bs.map tok)) rest ∧
      List.Forall₂ Mean (b :: bs) as := by
  have hmark : close ∈ marks := by rcases hclose with rfl | rfl <;> decide
  have hsolid : ¬ isSolid close := by rcases hclose with rfl | rfl <;> decide
  refine ⟨fun h => ?_, ?_⟩
  · induction h with
    | last ha hmid =>
      obtain ⟨b, hb, hmean⟩ := (hpart _ _ _ hcs (breaks_of_skipSpace_cons hmid hsolid)).mp ha
      refine ⟨b, [], spaced_append.mpr ⟨_, hb, ?_⟩, .cons hmean .nil⟩
      exact (spaced_mark hmark).mpr ⟨_, hmid, rfl⟩
    | @more cs mid mid' next rest c a as ha hmid hnext _ _ ih =>
      obtain ⟨b, hb, hmean⟩ := (hpart _ _ _ hcs (breaks_of_skipSpace_cons hmid (by decide))).mp ha
      obtain ⟨b', bs, hbs, hmeans⟩ := ih (skipSpace_eq_self hnext)
      refine ⟨b, b' :: bs, spaced_append.mpr ⟨_, hb, ?_⟩, .cons hmean hmeans⟩
      refine (spaced_mark (by decide)).mpr ⟨mid', hmid, ?_⟩
      rwa [← spaced_skipSpace (by simp [Tree.moreTokens_ne_nil]), hnext]
  · rintro ⟨b, bs, hscan, hmeans⟩
    -- By induction on the parts after the first one.
    induction bs generalizing b cs as with
    | nil =>
      obtain ⟨mid, hb, hmore⟩ := spaced_append.mp hscan
      obtain ⟨rest', hmid, rfl⟩ := (spaced_mark hmark).mp hmore
      cases hmeans with
      | cons hmean hnil =>
        cases hnil
        have ha := (hpart _ _ _ hcs (breaks_of_skipSpace_cons hmid hsolid)).mpr ⟨b, hb, hmean⟩
        exact .last ha hmid
    | cons b' bs ih =>
      obtain ⟨mid, hb, hmore⟩ := spaced_append.mp hscan
      obtain ⟨mid', hmid, hmore⟩ := (spaced_mark (by decide)).mp hmore
      cases hmeans with
      | @cons _ a _ as hmean hmeans =>
        have ha := (hpart _ _ _ hcs (breaks_of_skipSpace_cons hmid (by decide))).mpr ⟨b, hb, hmean⟩
        obtain ⟨mid'', hb', -⟩ := spaced_append.mp hmore
        have hne : tok b' ++ Tree.moreTokens close (bs.map tok) ≠ [] := by
          simp [Tree.moreTokens_ne_nil]
        obtain ⟨c, next, hnext⟩ := hmore.exists_skipSpace hne
        have hc : c ≠ close := by
          rintro rfl
          exact hfirst _ _ _ hb' next hnext
        rw [← spaced_skipSpace hne, hnext] at hmore
        exact .more ha hmid hnext hc (ih (skipSpace_eq_self hnext) b' hmore hmeans)

/-- A part takes a character at least. -/
theorem Reads.length_lt (h : Reads part tok Mean) (htok : ∀ b, tok b ≠ []) {cs rest : List Char}
    {a : α} (hcs : skipSpace cs = cs) (hrest : Breaks rest) (ha : part cs a rest) :
    rest.length < cs.length := by
  obtain ⟨b, hb, -⟩ := (h cs rest a hcs hrest).mp ha
  have hlength := hb.scans.length_le
  have hpos := List.length_pos_iff.mpr (htok b)
  omega

/-! ### Bounded recursions -/

/-- What follows a part: the end of the list, or a comma and the rest of the list. -/
inductive Continues (close : Char) (more : List Char → List α → List Char → Prop) (a : α) :
    List Char → List α → List Char → Prop
  | last {mid rest : List Char} : skipSpace mid = close :: rest →
      Continues close more a mid [a] rest
  | more {mid mid' next rest : List Char} {c : Char} {as : List α} : skipSpace mid = ',' :: mid' →
      skipSpace mid' = c :: next → c ≠ close → more (c :: next) as rest →
      Continues close more a mid (a :: as) rest

/-- A recursion that reads lists of at most as many parts as it has fuel. -/
structure ReadsLists (part : List Char → α → List Char → Prop) (close : Char)
    (run : Nat → List Char → List α → List Char → Prop) : Prop where
  zero : ∀ cs as rest, ¬ run 0 cs as rest
  succ : ∀ fuel cs as rest, run (fuel + 1) cs as rest ↔
    ∃ a mid, part cs a mid ∧ Continues close (run fuel) a mid as rest

variable {run : Nat → List Char → List α → List Char → Prop}

/-- What a bounded recursion reads is a list of parts. -/
theorem ReadsLists.sound (h : ReadsLists part close run) {fuel : Nat} {cs rest : List Char}
    {as : List α} (hrun : run fuel cs as rest) : Listed part close cs as rest := by
  -- By induction on the fuel, one part at a time.
  induction fuel generalizing cs as with
  | zero => exact absurd hrun (h.zero cs as rest)
  | succ fuel ih =>
    obtain ⟨a, mid, ha, hmore⟩ := (h.succ fuel cs as rest).mp hrun
    cases hmore with
    | last hmid => exact .last ha hmid
    | more hmid hnext hc hrest => exact .more ha hmid hnext hc (ih hrest)

/-- The length of the text is fuel enough. -/
theorem ReadsLists.complete (h : ReadsLists part close run) (hclose : ¬ isSolid close)
    (hpart : Reads part tok Mean) (htok : ∀ b, tok b ≠ []) {fuel : Nat} {cs rest : List Char}
    {as : List α} (hlisted : Listed part close cs as rest) (hcs : skipSpace cs = cs)
    (hfuel : cs.length ≤ fuel) : run fuel cs as rest := by
  -- By induction on the list. Each of its parts costs one unit of fuel and takes a character.
  induction hlisted generalizing fuel with
  | @last cs mid rest a ha hmid =>
    have hshorter := hpart.length_lt htok hcs (breaks_of_skipSpace_cons hmid hclose) ha
    obtain _ | fuel := fuel
    · omega
    · exact (h.succ fuel cs _ rest).mpr ⟨a, mid, ha, .last hmid⟩
  | @more cs mid mid' next rest c a as ha hmid hnext hc _ ih =>
    have hshorter := hpart.length_lt htok hcs (breaks_of_skipSpace_cons hmid (by decide)) ha
    have hcomma := length_dropWhile_le isSpace mid
    have hblank := length_dropWhile_le isSpace mid'
    rw [← skipSpace, hmid, List.length_cons] at hcomma
    rw [← skipSpace, hnext] at hblank
    obtain _ | fuel := fuel
    · omega
    · have hrest := ih (skipSpace_eq_self hnext) (show (c :: next).length ≤ fuel by omega)
      exact (h.succ fuel cs _ rest).mpr ⟨a, mid, ha, .more hmid hnext hc hrest⟩

/-- **Brackets.** What stands between brackets is nothing or a list, and it is told by its tokens. -/
theorem ReadsLists.bracketed_iff (h : ReadsLists part close run)
    (hclose : close = ']' ∨ close = '\x7d') (hpart : Reads part tok Mean) (htok : ∀ b, tok b ≠ [])
    (hfirst : ∀ b cs rest, Spaced cs (tok b) rest → ∀ r, skipSpace cs ≠ close :: r)
    {cs rest : List Char} {as : List α} :
    (as = [] ∧ skipSpace cs = close :: rest ∨ ∃ c next, skipSpace cs = c :: next ∧ c ≠ close ∧
        run (next.length + 1) (c :: next) as rest) ↔
      ∃ bs, Spaced cs (Tree.listTokens close (bs.map tok)) rest ∧ List.Forall₂ Mean bs as := by
  have hmark : close ∈ marks := by rcases hclose with rfl | rfl <;> decide
  -- Since a bracket is no solid character, it ends whatever token comes before it.
  have hsolid : ¬ isSolid close := by rcases hclose with rfl | rfl <;> decide
  refine ⟨?_, ?_⟩
  · rintro (⟨rfl, hcs⟩ | ⟨c, next, hcs, -, hrun⟩)
    · exact ⟨[], (spaced_mark hmark).mpr ⟨rest, hcs, rfl⟩, .nil⟩
    · obtain ⟨b, bs, hscan, hmeans⟩ :=
        (listed_iff hclose hpart hfirst (skipSpace_eq_self hcs)).mp (h.sound hrun)
      refine ⟨b :: bs, ?_, hmeans⟩
      rwa [← hcs, spaced_skipSpace (by simp [Tree.moreTokens_ne_nil])] at hscan
  · rintro ⟨_ | ⟨b, bs⟩, hscan, hmeans⟩
    · obtain ⟨rest', hcs, rfl⟩ := (spaced_mark hmark).mp hscan
      cases hmeans
      exact .inl ⟨rfl, hcs⟩
    · have hne : tok b ++ Tree.moreTokens close (bs.map tok) ≠ [] := by
        simp [Tree.moreTokens_ne_nil]
      obtain ⟨c, next, hcs⟩ := hscan.exists_skipSpace hne
      refine .inr ⟨c, next, hcs, ?_, ?_⟩
      · rintro rfl
        obtain ⟨mid, hb, -⟩ := spaced_append.mp hscan
        exact hfirst _ _ _ hb next hcs
      · have hself := skipSpace_eq_self hcs
        refine h.complete hsolid hpart htok ?_ hself (Nat.le_refl _)
        refine (listed_iff hclose hpart hfirst hself).mpr ⟨b, bs, ?_, hmeans⟩
        rwa [← hcs, spaced_skipSpace hne]

end Lists

/-- An item of an array. -/
def ItemAt (item : Json.Reader Json) (cs : List Char) (j : Json) (rest : List Char) : Prop :=
  item cs = .ok (j, rest)

/-- A member of an object. -/
def MemberAt (value : Json.Reader Json) (cs : List Char) (m : String × Json) (rest : List Char) :
    Prop :=
  ∃ mid mid', memberName cs = .ok (m.1, mid) ∧ colon mid = .ok ((), mid') ∧
    value mid' = .ok (m.2, rest)

/-- The recursion of the reader for arrays is of this kind. -/
theorem itemsFrom_readsLists (item : Json.Reader Json) :
    ReadsLists (ItemAt item) ']' fun fuel cs js rest => itemsFrom item fuel cs = .ok (js, rest) where
  zero _ _ _ := nofun
  succ fuel cs js rest := by
    refine ⟨fun h => ?_, ?_⟩
    · obtain ⟨⟨j, mid⟩, hj, hmore⟩ := bind_eq_ok.mp h
      refine ⟨j, mid, hj, ?_⟩
      dsimp only at hmore
      -- What follows the item closes the array, is a comma, or is an error.
      split at hmore
      · cases hmore
      · next hmid =>
        cases hmore
        exact .last hmid
      · next mid' hmid =>
        split at hmore
        · cases hmore
        · cases hmore
        · next hnil hclose =>
          obtain ⟨⟨js', r⟩, hjs, e⟩ := bind_eq_ok.mp hmore
          cases e
          obtain ⟨c, next, hnext⟩ := List.exists_cons_of_ne_nil hnil
          exact .more hmid hnext (fun hc => hclose next (hc ▸ hnext)) (hnext ▸ hjs)
      · cases hmore
    · rintro ⟨j, mid, hj, hmore⟩
      refine bind_eq_ok.mpr ⟨(j, mid), hj, ?_⟩
      cases hmore with
      | last hmid =>
        dsimp only
        rw [hmid]
        rfl
      | more hmid hnext hc hjs =>
        simp only [hmid, hnext]
        split
        · next heq => cases heq
        · next heq => exact absurd (List.cons.inj heq).1 hc
        · exact bind_eq_ok.mpr ⟨_, hjs, rfl⟩

/-- So is the recursion of the reader for objects. -/
theorem membersFrom_readsLists (value : Json.Reader Json) :
    ReadsLists (MemberAt value) '\x7d' fun fuel cs ms rest =>
      membersFrom value fuel cs = .ok (ms, rest) where
  zero _ _ _ := nofun
  succ fuel cs ms rest := by
    refine ⟨fun h => ?_, ?_⟩
    · obtain ⟨⟨name, cs₁⟩, hname, hmore⟩ := bind_eq_ok.mp h
      obtain ⟨⟨_, cs₂⟩, hcolon, hmore⟩ := bind_eq_ok.mp hmore
      obtain ⟨⟨j, mid⟩, hj, hmore⟩ := bind_eq_ok.mp hmore
      refine ⟨(name, j), mid, ⟨cs₁, cs₂, hname, hcolon, hj⟩, ?_⟩
      dsimp only at hmore
      -- As for items, what follows the value decides.
      split at hmore
      · cases hmore
      · next hmid =>
        cases hmore
        exact .last hmid
      · next mid' hmid =>
        split at hmore
        · cases hmore
        · cases hmore
        · next hnil hclose =>
          obtain ⟨⟨ms', r⟩, hms, e⟩ := bind_eq_ok.mp hmore
          cases e
          obtain ⟨c, next, hnext⟩ := List.exists_cons_of_ne_nil hnil
          exact .more hmid hnext (fun hc => hclose next (hc ▸ hnext)) (hnext ▸ hms)
      · cases hmore
    · rintro ⟨⟨name, j⟩, mid, ⟨cs₁, cs₂, hname, hcolon, hj⟩, hmore⟩
      refine bind_eq_ok.mpr ⟨_, hname, bind_eq_ok.mpr ⟨_, hcolon, bind_eq_ok.mpr ⟨_, hj, ?_⟩⟩⟩
      cases hmore with
      | last hmid =>
        dsimp only
        rw [hmid]
        rfl
      | more hmid hnext hc hms =>
        simp only [hmid, hnext]
        split
        · next heq => cases heq
        · next heq => exact absurd (List.cons.inj heq).1 hc
        · exact bind_eq_ok.mpr ⟨_, hms, rfl⟩

/-- The items of an array: none at all, or a first and those behind it. As much fuel is given as there are
characters. -/
theorem items_eq_ok {item : Json.Reader Json} {cs rest : List Char} {js : List Json} :
    items item cs = .ok (js, rest) ↔ js = [] ∧ skipSpace cs = ']' :: rest ∨
      ∃ c next, skipSpace cs = c :: next ∧ c ≠ ']' ∧
        itemsFrom item (next.length + 1) (c :: next) = .ok (js, rest) := by
  unfold items
  split
  · next hcs => simp [hcs]
  · next r hcs => simp [hcs, eq_comm]
  · next hnil hclose =>
    obtain ⟨c, next, hcs⟩ := List.exists_cons_of_ne_nil hnil
    have hc : c ≠ ']' := fun hc => hclose next (hc ▸ hcs)
    simp [hcs, hc]

/-- The members of an object in the same way. -/
theorem members_eq_ok {value : Json.Reader Json} {cs rest : List Char}
    {ms : List (String × Json)} :
    members value cs = .ok (ms, rest) ↔ ms = [] ∧ skipSpace cs = '\x7d' :: rest ∨
      ∃ c next, skipSpace cs = c :: next ∧ c ≠ '\x7d' ∧
        membersFrom value (next.length + 1) (c :: next) = .ok (ms, rest) := by
  unfold members
  split
  · next hcs => simp [hcs]
  · next r hcs => simp [hcs, eq_comm]
  · next hnil hclose =>
    obtain ⟨c, next, hcs⟩ := List.exists_cons_of_ne_nil hnil
    have hc : c ≠ '\x7d' := fun hc => hclose next (hc ▸ hcs)
    simp [hcs, hc]

/-! ### Values -/

section Containers

variable {value : Json.Reader Json} {cs rest : List Char} {n : Nat}

/-- The trees of values that nest no deeper than `n`, and what they mean. -/
def MeansWithin (n : Nat) (v : Tree.Value) (j : Json) : Prop :=
  v.Means j ∧ v.depth ≤ n

/-- The trees of members whose values nest no deeper than `n`, and what they mean. -/
def MemberMeansWithin (n : Nat) (m : List Char × Tree.Value) (named : String × Json) : Prop :=
  StringMeans m.1 named.1 ∧ MeansWithin n m.2 named.2

/-- Items mean something within a depth if each of them does. -/
theorem forall₂_meansWithin {vs : List Tree.Value} {js : List Json} :
    List.Forall₂ (MeansWithin n) vs js ↔ Tree.ItemsMean vs js ∧ Tree.itemsDepth vs ≤ n := by
  -- By induction on the items; the depth is the greatest of theirs.
  induction vs generalizing js with
  | nil => simp [Tree.ItemsMean, Tree.itemsDepth]
  | cons v vs ih =>
    simp only [List.forall₂_cons_left_iff, ih, MeansWithin, Tree.ItemsMean, Tree.itemsDepth,
      Nat.max_le]
    refine ⟨?_, ?_⟩
    · rintro ⟨j, js', ⟨hv, hdepth⟩, ⟨hvs, hdepths⟩, rfl⟩
      exact ⟨⟨j, js', hv, hvs, rfl⟩, hdepth, hdepths⟩
    · rintro ⟨⟨j, js', hv, hvs, rfl⟩, hdepth, hdepths⟩
      exact ⟨j, js', ⟨hv, hdepth⟩, ⟨hvs, hdepths⟩, rfl⟩

/-- So do members. -/
theorem forall₂_memberMeansWithin {ms : List (List Char × Tree.Value)}
    {named : List (String × Json)} :
    List.Forall₂ (MemberMeansWithin n) ms named ↔
      Tree.MembersMean ms named ∧ Tree.membersDepth ms ≤ n := by
  induction ms generalizing named with
  | nil => simp [Tree.MembersMean, Tree.membersDepth]
  | cons m ms ih =>
    simp only [List.forall₂_cons_left_iff, ih, MemberMeansWithin, MeansWithin, Tree.MembersMean,
      Tree.membersDepth, Nat.max_le]
    refine ⟨?_, ?_⟩
    · rintro ⟨⟨s, j⟩, named', ⟨hs, hv, hdepth⟩, ⟨hms, hdepths⟩, rfl⟩
      exact ⟨⟨s, j, named', hs, hv, hms, rfl⟩, hdepth, hdepths⟩
    · rintro ⟨⟨s, j, named', hs, hv, hms, rfl⟩, hdepth, hdepths⟩
      exact ⟨(s, j), named', ⟨hs, hv, hdepth⟩, ⟨hms, hdepths⟩, rfl⟩

/-- A closing mark begins no value. -/
theorem skipSpace_ne_of_skip_ne {close : Char} (hclose : close = ']' ∨ close = '\x7d')
    (h : ∀ r, skip cs ≠ close :: r) (r : List Char) : skipSpace cs ≠ close :: r := by
  intro hcs
  have hclass : classOf? close = some .mark := by rcases hclose with rfl | rfl <;> rfl
  refine h r ?_
  rw [(gap_skipSpace cs).skip_eq, hcs, skip_cons_of_classOf? hclass]

/-- A colon is read where it is. -/
theorem colon_eq_ok {mid : List Char} :
    colon cs = .ok ((), mid) ↔ skipSpace cs = ':' :: mid := by
  unfold colon
  split
  · next h => simp [h]
  · next h => simp [h]
  · next hnil hcolon => exact iff_of_false (fail_ne_ok _ _ _ _) (hcolon mid)

/-- What is read as a string, with its quotes, is a string literal that means it. -/
theorem string_at_iff {s : String} :
    (∃ mid, cs = '"' :: mid ∧ string mid = .ok (s, rest)) ↔
      ∃ raw, (Token.string raw).At cs rest ∧ StringMeans raw s := by
  refine ⟨?_, ?_⟩
  · rintro ⟨mid, rfl, hread⟩
    obtain ⟨raw, hraw, htext⟩ := string_sound hread
    refine ⟨raw, ?_, hraw⟩
    rw [htext]
    exact Token.at_string_iff.mpr (stringLiteral_append hraw.isString rest)
  · rintro ⟨raw, hat, hraw⟩
    obtain ⟨mid, htext, hread⟩ := string_append hraw rest
    have hcs : cs = raw ++ rest := (munches_stringLiteral.sound (Token.at_string_iff.mp hat)).1
    exact ⟨mid, hcs.trans htext, hread⟩

/-- The name of a member is a string. -/
theorem memberName_eq_ok {name : String} :
    memberName cs = .ok (name, rest) ↔ ∃ raw, (Token.string raw).At cs rest ∧ StringMeans raw name := by
  rw [← string_at_iff]
  unfold memberName
  split
  · next mid => exact ⟨fun h => ⟨mid, rfl, h⟩, fun ⟨_, heq, h⟩ => (List.cons.inj heq).2 ▸ h⟩
  · next hquote => exact iff_of_false nofun fun ⟨mid, heq, _⟩ => hquote mid heq

/-- Members are read where their tokens stand if their values are. -/
theorem Reads.member (h : Reads (ItemAt value) Tree.Value.tokens (MeansWithin n))
    (hskip : ∀ cs, value (skipSpace cs) = value cs) :
    Reads (MemberAt value) Tree.oneMemberTokens (MemberMeansWithin n) := by
  intro cs rest m hcs hrest
  -- The value may have blanks in front of it, which the reader skips.
  have hvalue : ∀ mid, value mid = .ok (m.2, rest) ↔
      ∃ v : Tree.Value, Spaced mid v.tokens rest ∧ MeansWithin n v m.2 := by
    intro mid
    have hread := h (skipSpace mid) rest m.2 (skipSpace_skipSpace mid) hrest
    rw [ItemAt, hskip] at hread
    rw [hread]
    exact exists_congr fun v => and_congr_left' (spaced_skipSpace (Json.tokens_ne_nil v))
  refine ⟨?_, ?_⟩
  · rintro ⟨mid, mid', hname, hcolon, hj⟩
    obtain ⟨v, hv, hmeans⟩ := (hvalue mid').mp hj
    obtain ⟨raw, hat, hraw⟩ := memberName_eq_ok.mp hname
    refine ⟨(raw, v), ⟨mid, hcs.symm ▸ hat, ?_⟩, hraw, hmeans⟩
    exact (spaced_mark (by decide)).mpr ⟨mid', colon_eq_ok.mp hcolon, hv⟩
  · rintro ⟨⟨raw, v⟩, ⟨mid, hat, hmore⟩, hraw, hmeans⟩
    obtain ⟨mid', hcolon, hv⟩ := (spaced_mark (by decide)).mp hmore
    refine ⟨mid, mid', ?_, colon_eq_ok.mpr hcolon, (hvalue mid').mpr ⟨v, hv, hmeans⟩⟩
    exact memberName_eq_ok.mpr ⟨raw, hcs ▸ hat, hraw⟩

/-- **Arrays.** What is read as an array, after its bracket, is the text of items. -/
theorem array_eq_ok (h : Reads (ItemAt value) Tree.Value.tokens (MeansWithin n)) {j : Json} :
    array value cs = .ok (j, rest) ↔
      ∃ vs, Spaced cs (Tree.itemTokens vs) rest ∧ MeansWithin (n + 1) (.array vs) j := by
  -- No value begins with the closing bracket, so an empty list is never mistaken for another.
  have hfirst : ∀ (v : Tree.Value) cs rest, Spaced cs v.tokens rest → ∀ r, skipSpace cs ≠ ']' :: r :=
    fun v cs rest hv => skipSpace_ne_of_skip_ne (.inl rfl)
      (Phrase.skip_ne_of_scans_value (.inl rfl) hv.scans)
  have hitems : ∀ js, items value cs = .ok (js, rest) ↔ ∃ vs, Spaced cs (Tree.itemTokens vs) rest ∧
      Tree.ItemsMean vs js ∧ Tree.itemsDepth vs ≤ n := by
    intro js
    rw [items_eq_ok,
      (itemsFrom_readsLists value).bracketed_iff (.inl rfl) h Json.tokens_ne_nil hfirst]
    simp only [← Tree.itemTokens_eq, forall₂_meansWithin]
  refine ⟨fun hread => ?_, ?_⟩
  · obtain ⟨⟨js, rest'⟩, hjs, e⟩ := bind_eq_ok.mp hread
    cases e
    obtain ⟨vs, hvs, hmean, hdepth⟩ := (hitems js).mp hjs
    exact ⟨vs, hvs, ⟨js, hmean, rfl⟩, Nat.succ_le_succ hdepth⟩
  · rintro ⟨vs, hvs, ⟨js, hmean, rfl⟩, hdepth⟩
    have hjs := (hitems js).mpr ⟨vs, hvs, hmean, Nat.le_of_succ_le_succ hdepth⟩
    exact bind_eq_ok.mpr ⟨(js, rest), hjs, rfl⟩

/-- The members that are read, after the brace of an object, are what a text of members means. -/
theorem members_iff (h : Reads (ItemAt value) Tree.Value.tokens (MeansWithin n))
    (hskip : ∀ cs, value (skipSpace cs) = value cs) {named : List (String × Json)} :
    members value cs = .ok (named, rest) ↔ ∃ ms, Spaced cs (Tree.memberTokens ms) rest ∧
      Tree.MembersMean ms named ∧ Tree.membersDepth ms ≤ n := by
  have hfirst : ∀ m cs rest, Spaced cs (Tree.oneMemberTokens m) rest →
      ∀ r, skipSpace cs ≠ '\x7d' :: r := fun m cs rest hm =>
    skipSpace_ne_of_skip_ne (.inr rfl) (Phrase.skip_ne_of_scans_member (.inr rfl) hm.scans)
  rw [members_eq_ok, (membersFrom_readsLists value).bracketed_iff (.inr rfl) (h.member hskip)
    (fun _ => List.cons_ne_nil _ _) hfirst]
  simp only [← Tree.memberTokens_eq, forall₂_memberMeansWithin]

/-- **Objects.** What is read as an object, after its brace, is the text of members. -/
theorem object_eq_ok (h : Reads (ItemAt value) Tree.Value.tokens (MeansWithin n))
    (hskip : ∀ cs, value (skipSpace cs) = value cs) {j : Json} :
    object value cs = .ok (j, rest) ↔
      ∃ ms, Spaced cs (Tree.memberTokens ms) rest ∧ MeansWithin (n + 1) (.object ms) j := by
  refine ⟨fun hread => ?_, ?_⟩
  · obtain ⟨⟨named, rest'⟩, hnamed, e⟩ := bind_eq_ok.mp hread
    cases e
    obtain ⟨ms, hms, hmean, hdepth⟩ := (members_iff h hskip).mp hnamed
    exact ⟨ms, hms, ⟨named, hmean, rfl⟩, Nat.succ_le_succ hdepth⟩
  · rintro ⟨ms, hms, ⟨named, hmean, rfl⟩, hdepth⟩
    have hnamed := (members_iff h hskip).mpr ⟨ms, hms, hmean, Nat.le_of_succ_le_succ hdepth⟩
    exact bind_eq_ok.mpr ⟨(named, rest), hnamed, rfl⟩

/-- A value is read where its tokens stand if containers are. -/
theorem valueWith_reads {array object : Json.Reader Json}
    (harray : ∀ cs rest j, array cs = .ok (j, rest) ↔
      ∃ vs, Spaced cs (Tree.itemTokens vs) rest ∧ MeansWithin n (.array vs) j)
    (hobject : ∀ cs rest j, object cs = .ok (j, rest) ↔
      ∃ ms, Spaced cs (Tree.memberTokens ms) rest ∧ MeansWithin n (.object ms) j) :
    Reads (ItemAt (valueWith array object)) Tree.Value.tokens (MeansWithin n) := by
  intro cs rest j _ hrest
  refine ⟨fun hread => ?_, ?_⟩
  · -- Forward, whatever is read has begun with a bracket or is a scalar.
    rcases valueWith_sound hread hrest with ⟨mid, hcs, hj⟩ | ⟨mid, hcs, hj⟩ | ⟨v, hdepth, hv, hmeans⟩
    · obtain ⟨vs, hvs, hmeans⟩ := (harray mid rest j).mp hj
      exact ⟨.array vs, (spaced_mark (by decide)).mpr ⟨mid, hcs, hvs⟩, hmeans⟩
    · obtain ⟨ms, hms, hmeans⟩ := (hobject mid rest j).mp hj
      exact ⟨.object ms, (spaced_mark (by decide)).mpr ⟨mid, hcs, hms⟩, hmeans⟩
    · exact ⟨v, hv, hmeans, hdepth ▸ Nat.zero_le n⟩
  · rintro ⟨v, hv, hmeans⟩
    rw [ItemAt]
    cases v with
    | array vs =>
      obtain ⟨mid, hcs, hvs⟩ := (spaced_mark (by decide)).mp hv
      unfold valueWith
      rw [hcs]
      exact (harray mid rest j).mpr ⟨vs, hvs, hmeans⟩
    | object ms =>
      obtain ⟨mid, hcs, hms⟩ := (spaced_mark (by decide)).mp hv
      unfold valueWith
      rw [hcs]
      exact (hobject mid rest j).mpr ⟨ms, hms, hmeans⟩
    | string | number | word => exact valueWith_complete rfl hv hmeans.1 hrest

end Containers

/-- Skipping blanks first does not change what is read. -/
theorem value_skipSpace (n : Nat) (cs : List Char) : value n (skipSpace cs) = value n cs := by
  cases n <;> exact valueWith_skipSpace cs

/-- **Values.** A value that may nest `n` containers inside each other is read exactly where the tokens
of one stand. -/
theorem value_reads (n : Nat) : Reads (ItemAt (value n)) Tree.Value.tokens (MeansWithin n) := by
  -- By induction on how deep the reader may go, which is one level less for the parts of a container.
  induction n with
  | zero =>
    refine valueWith_reads (fun cs rest j => ?_) (fun cs rest j => ?_) <;>
      exact iff_of_false nofun fun ⟨_, _, _, hdepth⟩ => absurd hdepth (Nat.not_succ_le_zero _)
  | succ n ih =>
    exact valueWith_reads (fun cs rest j => array_eq_ok ih)
      (fun cs rest j => object_eq_ok ih (value_skipSpace n))

/-! ### Texts -/

/-- A value of another type is an error. -/
theorem mismatch_ne_ok {α : Type} (expected : String) (cs : List Char) (a : α) :
    mismatch expected cs ≠ .ok a := by
  unfold mismatch
  split
  · exact nofun
  · exact nofun
  · intro h
    obtain ⟨⟨j, rest⟩, -, h⟩ := bind_eq_ok.mp h
    cases j <;> cases h

/-- An object is its members, put in order one after another. -/
theorem orderedObject_eq_ok {n : Nat} {cs rest : List Char} {o : Json.Object} :
    orderedObject n cs = .ok (o, rest) ↔
      ∃ named, members (value n) cs = .ok (named, rest) ∧
        o.members = Json.insertMembers named [] := by
  unfold orderedObject
  split
  · next h => simp [h]
  · next named rest' h =>
    refine ⟨fun e => ?_, ?_⟩
    · cases e
      exact ⟨named, h, rfl⟩
    · rintro ⟨_, h', hmembers⟩
      cases h.symm.trans h'
      -- An object is its members, whatever shows that they are in order.
      exact congrArg (fun o => Except.ok (o, rest)) (Json.Object.ext hmembers.symm)

/-- Where an object is expected, it must begin with its brace. -/
theorem objectValue_eq_ok {n : Nat} {cs rest : List Char} {o : Json.Object} :
    objectValue (n + 1) cs = .ok (o, rest) ↔
      ∃ mid, skipSpace cs = '\x7b' :: mid ∧ orderedObject n mid = .ok (o, rest) := by
  unfold objectValue
  split
  · next h => simp [h]
  · next h => simp [h]
  · next hnil hopen =>
    refine iff_of_false (mismatch_ne_ok _ _ _) ?_
    rintro ⟨mid, hcs, -⟩
    exact hopen mid hcs

/-- Where a string is expected, it must begin with its quote. -/
theorem stringValue_eq_ok {cs rest : List Char} {s : String} :
    stringValue cs = .ok (s, rest) ↔
      ∃ raw, (Token.string raw).At (skipSpace cs) rest ∧ StringMeans raw s := by
  rw [← string_at_iff]
  unfold stringValue
  split
  · next h => simp [h]
  · next h => simp [h]
  · -- Any other first character is a mismatch.
    next hnil hquote =>
    refine iff_of_false (mismatch_ne_ok _ _ _) ?_
    rintro ⟨mid, hcs, -⟩
    exact hquote mid hcs

/-- A value that has to be an object is read exactly where the tokens of an object stand. -/
theorem objectValue_reads {n : Nat} {cs rest : List Char} {o : Json.Object} :
    objectValue (n + 1) cs = .ok (o, rest) ↔
      ∃ ms, Spaced cs (.mark '\x7b' :: Tree.memberTokens ms) rest ∧ Tree.membersDepth ms ≤ n ∧
        ∃ named, Tree.MembersMean ms named ∧ o.members = Json.insertMembers named [] := by
  simp only [objectValue_eq_ok, orderedObject_eq_ok, members_iff (value_reads n) (value_skipSpace n),
    spaced_mark (show '\x7b' ∈ marks by decide)]
  refine ⟨?_, ?_⟩
  · rintro ⟨mid, hopen, named, ⟨ms, hms, hmean, hdepth⟩, hmembers⟩
    exact ⟨ms, ⟨mid, hopen, hms⟩, hdepth, named, hmean, hmembers⟩
  · rintro ⟨ms, ⟨mid, hopen, hms⟩, hdepth, named, hmean, hmembers⟩
    exact ⟨mid, hopen, named, ⟨ms, hms, hmean, hdepth⟩, hmembers⟩

/-- Nothing but blanks may be left at the end. -/
theorem finish_eq_ok {cs : List Char} : finish cs = .ok () ↔ skipSpace cs = [] := by
  unfold finish
  split
  · next h => simp [h]
  · next h => exact iff_of_false (fail_ne_ok _ _ _ _) h

/-- **Objects.** A text is read as an object exactly if it is the text of a derivation of an object,
with white space between its tokens, whose containers do not nest too deep and whose literals mean
something. -/
theorem read_object_eq_ok {text : List Char} {o : Json.Object} :
    Json.Object.read text = .ok o ↔
      ∃ ms rest, Spaced text (.mark '\x7b' :: Tree.memberTokens ms) rest ∧ skipSpace rest = [] ∧
        Tree.membersDepth ms + 1 ≤ maxNesting ∧
        ∃ named, Tree.MembersMean ms named ∧ o.members = Json.insertMembers named [] := by
  simp only [Json.Object.read, wholly_eq_ok, finish_eq_ok, maxNesting, objectValue_reads]
  refine ⟨?_, ?_⟩
  · rintro ⟨rest, ⟨ms, hscan, hdepth, hmeans⟩, hend⟩
    exact ⟨ms, rest, hscan, hend, Nat.succ_le_succ hdepth, hmeans⟩
  · rintro ⟨ms, rest, hscan, hend, hdepth, hmeans⟩
    exact ⟨rest, ⟨ms, hscan, Nat.le_of_succ_le_succ hdepth, hmeans⟩, hend⟩

end ModelText.Grammar
