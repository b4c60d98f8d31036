import ModelText.Proofs.Tree

/-!
# Gaps between tokens make no difference

White space and complete comments can be put between the tokens of a text without changing the tokens
that it consists of (`Insertion.lexes_iff`). Maximal munch is what there is to check. A token that a
gap has been put behind ends there still, since no token goes on with a blank or a slash, and a token
farther in front does not reach so far.
-/

namespace ModelText.Grammar

/-- White space and complete comments: a line comment with the end of its line, a block comment up to
the first mark that closes it. -/
inductive Separator : List Char → Prop
  | nil : Separator []
  | blank {c : Char} {cs : List Char} : isBlank c → Separator cs → Separator (c :: cs)
  | line {body cs : List Char} : (∀ c ∈ body, c ≠ '\n') → Separator cs →
      Separator ('/' :: '/' :: (body ++ '\n' :: cs))
  | block {body cs : List Char} : ¬ ['*', '/'] <:+: body ++ ['*'] → Separator cs →
      Separator ('/' :: '*' :: (body ++ '*' :: '/' :: cs))

theorem Separator.gap {g : List Char} (h : Separator g) (rest : List Char) :
    Gap (g ++ rest) rest := by
  induction h with
  | nil => exact .none rest
  | blank hc _ ih => exact .blank hc ih
  | line hbody _ ih =>
    simp only [List.cons_append, List.append_assoc]
    exact .line hbody (by simp) (.blank rfl ih)
  | block hbody _ ih =>
    simp only [List.cons_append, List.append_assoc]
    exact .block hbody ih

/-- A gap in front of a token stands for itself, whatever comes after it. -/
theorem Gap.exists_separator {cs rest : List Char} (h : Gap cs rest) {c : Char}
    {k : TokenClass} (hrest : rest.head? = some c) (hc : classOf? c = some k) :
    ∃ g, Separator g ∧ cs = g ++ rest := by
  have hline : c ≠ '\n' := by
    rintro rfl
    cases hc
  -- By induction on the gap. Only a line comment at the end of the text would not be closed, and
  -- the token that follows keeps it from being there.
  induction h with
  | none => exact ⟨[], .nil, rfl⟩
  | blank hb _ ih =>
    obtain ⟨g, hg, rfl⟩ := ih hrest
    exact ⟨_, .blank hb hg, rfl⟩
  | @line body cs rest hbody hend _ ih =>
    obtain ⟨g, hg, rfl⟩ := ih hrest
    -- The end of the line is the first blank of what follows, since neither a token nor a comment
    -- begins with it.
    cases hg with
    | nil =>
      rw [List.nil_append] at hend
      exact absurd (hend c hrest) hline
    | @blank d g hd hg =>
      obtain rfl := hend d rfl
      exact ⟨_, .line hbody hg, by simp⟩
    | line => exact absurd (hend '/' rfl) (by decide)
    | block => exact absurd (hend '/' rfl) (by decide)
  | block hbody _ ih =>
    obtain ⟨g, hg, rfl⟩ := ih hrest
    exact ⟨_, .block hbody hg, by simp⟩

theorem Separator.head {g : List Char} (h : Separator g) : ∀ c ∈ g.head?, ¬ isSolid c := by
  -- A separator begins with a blank or a slash.
  cases h with
  | nil => simp
  | blank hc _ =>
    rintro _ ⟨⟩ hsolid
    simp only [isBlank, Bool.or_eq_true, beq_iff_eq] at hc
    rcases hc with ((rfl | rfl) | rfl) | rfl <;> exact absurd hsolid (by decide)
  | line =>
    rintro _ ⟨⟩
    decide
  | block =>
    rintro _ ⟨⟩
    decide

/-! ### Tokens in front of a gap -/

theorem Token.Spelled.unique {t : Token} {w w' : List Char} (h : t.Spelled w)
    (h' : t.Spelled w') : w = w' := by
  cases h <;> cases h' <;> rfl

/-- At one place there is one stretch of text that is a token. -/
theorem Token.At.unique {t t' : Token} {cs rest rest' : List Char} (h : t.At cs rest)
    (h' : t'.At cs rest') : rest = rest' ∧ ∀ {w}, t.Spelled w → t'.Spelled w := by
  obtain ⟨w, hw, rfl, hmax⟩ := h
  obtain ⟨w', hw', heq, hmax'⟩ := h'
  have hsame : w = w' ∧ rest = rest' := by
    -- If one spelling went on beyond the other, then the other would not be the longest.
    rcases List.append_eq_append_iff.mp heq with ⟨more, rfl, hrest⟩ | ⟨more, rfl, hrest⟩
    · obtain rfl := hmax _ _ _ hrest hw'
      exact ⟨(List.append_nil w).symm, by simpa using hrest⟩
    · obtain rfl := hmax' _ _ _ hrest hw
      exact ⟨List.append_nil w', by simpa using hrest.symm⟩
  obtain ⟨rfl, rfl⟩ := hsame
  exact ⟨rfl, fun hv => hv.unique hw ▸ hw'⟩

/-- Whether a token is at the front of a text depends on its spelling alone. -/
theorem Token.At.of_spelled {t t' : Token} {cs rest : List Char} (h : t.At cs rest)
    (ht : ∀ {w}, t.Spelled w → t'.Spelled w) : t'.At cs rest := by
  obtain ⟨w, hw, hcs, hmax⟩ := h
  exact ⟨w, ht hw, hcs, hmax⟩

/-- A token stays a token if the text after it changes from a place on where no token can go on. -/
theorem Token.At.replace {t : Token} {w mid rest rest' : List Char} (hw : t.Spelled w)
    (h : t.At (w ++ (mid ++ rest)) (mid ++ rest)) (hhead : ∀ c ∈ rest'.head?, ¬ isSolid c) :
    t.At (w ++ (mid ++ rest')) (mid ++ rest') := by
  obtain ⟨w', hw', hcs, hmax⟩ := h
  obtain rfl := hw.unique hw'
  refine ⟨w, hw, rfl, fun t' more last hlast hmore => ?_⟩
  rcases List.append_eq_append_iff.mp hlast with ⟨v, rfl, hv⟩ | ⟨v, rfl, hv⟩
  · -- The longer token would go on into the new text.
    cases v with
    | nil =>
      rw [List.append_nil] at hmore ⊢
      exact hmax t' mid rest rfl hmore
    | cons c v =>
      have hsolid := hw.solid_of_append hmore c (by simp)
      rw [hv] at hhead
      exact absurd hsolid (hhead c rfl)
  · -- It ends before the change, so it was there before.
    exact hmax t' more (v ++ rest) (List.append_assoc _ _ _) hmore

theorem Gap.exists_append {cs rest : List Char} (h : Gap cs rest) : ∃ g, cs = g ++ rest := by
  induction h with
  | none => exact ⟨[], rfl⟩
  | blank _ _ ih =>
    obtain ⟨g, rfl⟩ := ih
    exact ⟨_ :: g, rfl⟩
  | @line body _ _ _ _ _ ih =>
    obtain ⟨g, rfl⟩ := ih
    exact ⟨'/' :: '/' :: (body ++ g), by simp⟩
  | @block body _ _ _ _ ih =>
    obtain ⟨g, rfl⟩ := ih
    exact ⟨'/' :: '*' :: (body ++ '*' :: '/' :: g), by simp⟩

theorem Scans.exists_append {cs rest : List Char} {ts : List Token} (h : Scans cs ts rest) :
    ∃ pre, cs = pre ++ rest := by
  induction ts generalizing cs with
  | nil => exact ⟨[], h⟩
  | cons t ts ih =>
    obtain ⟨mid, ⟨w, -, hcs, -⟩, hscan⟩ := h
    obtain ⟨u, rfl⟩ := ih hscan
    obtain ⟨g, hg⟩ := (gap_skip cs).exists_append
    exact ⟨g ++ (w ++ u), by rw [hg, hcs]; simp⟩

/-- Tokens stay tokens if the text after them changes from a place on where no token can go on. -/
theorem Scans.replace {pre rest rest' : List Char} {ts : List Token}
    (h : Scans (pre ++ rest) ts rest) (hhead : ∀ c ∈ rest'.head?, ¬ isSolid c) :
    Scans (pre ++ rest') ts rest' := by
  -- By induction on the tokens. Each of them has the same gap in front of it and ends at the same
  -- place.
  induction ts generalizing pre with
  | nil =>
    obtain rfl : pre = [] := List.append_left_eq_self.mp (scans_nil.mp h)
    rfl
  | cons t ts ih =>
    obtain ⟨mid, hat, hscan⟩ := h
    obtain ⟨u, rfl⟩ := hscan.exists_append
    obtain ⟨w, hw, hskip, -⟩ := id hat
    -- The gap in front of the token is the same before and after the change.
    obtain ⟨c, cs, hfirst, hc⟩ := hw.exists_first
    have hstart : (skip (pre ++ rest)).head? = some c := by rw [hskip, hfirst]; rfl
    obtain ⟨g, hg, heq⟩ := (gap_skip (pre ++ rest)).exists_separator hstart hc
    rw [hskip] at hat heq
    have hsame : pre ++ rest = g ++ (w ++ u) ++ rest := by simpa using heq
    have hpre := List.append_cancel_right hsame
    have hat' := Token.At.replace hw hat hhead
    refine ⟨u ++ rest', ?_, ih hscan⟩
    rw [hpre, List.append_assoc, List.append_assoc, (hg.gap _).skip_eq, hat'.skip_eq]
    exact hat'

/-! ### Insertion -/

/-- Texts that have the same tokens up to two places which gaps of both reach have the same
tokens. -/
theorem lexes_of_scans {cs cs' rest rest' : List Char} {ts us : List Token}
    (h : Scans cs ts rest) (h' : Scans cs' ts rest') (hskip : skip rest = skip rest')
    (hlex : Lexes cs us) : Lexes cs' us := by
  -- By induction on the common tokens. What comes after them is the same up to a gap.
  induction ts generalizing cs cs' us with
  | nil =>
    obtain rfl := scans_nil.mp h
    obtain rfl := scans_nil.mp h'
    cases us with
    | nil =>
      obtain ⟨_, rfl, hend⟩ := lexes_iff.mp hlex
      exact lexes_iff.mpr ⟨_, rfl, hskip ▸ hend⟩
    | cons u us =>
      obtain ⟨last, hscan, hend⟩ := lexes_iff.mp hlex
      rw [scans_iff_of_skip_eq (List.cons_ne_nil u us) hskip] at hscan
      exact lexes_iff.mpr ⟨last, hscan, hend⟩
  | cons t ts ih =>
    obtain ⟨mid, hat, h⟩ := h
    obtain ⟨mid', hat', h'⟩ := h'
    obtain ⟨last, hscan, hend⟩ := lexes_iff.mp hlex
    cases us with
    | nil =>
      -- The first text would end where it has a token.
      obtain rfl := scans_nil.mp hscan
      rw [hend] at hat
      exact absurd hat.length_lt (Nat.not_lt_zero _)
    | cons u us =>
      obtain ⟨mid'', hu, hscan⟩ := hscan
      obtain ⟨rfl, hspelled⟩ := hat.unique hu
      have hus : Lexes mid us := lexes_iff.mpr ⟨last, hscan, hend⟩
      exact .token (gap_skip cs') (hat'.of_spelled hspelled) (ih h h' hus)

/-- A text and the same text with a separator inserted after some tokens and another separator. -/
structure Insertion (text text' : List Char) : Prop where
  exists_parts : ∃ pre between inserted post ts, Separator between ∧ Separator inserted ∧
    text = pre ++ (between ++ post) ∧ text' = pre ++ (between ++ (inserted ++ post)) ∧
    Scans text ts (between ++ post)

/-- **Insertion.** White space and complete comments between tokens change no token. -/
theorem Insertion.lexes_iff {text text' : List Char} (h : Insertion text text')
    {us : List Token} : Lexes text us ↔ Lexes text' us := by
  obtain ⟨pre, between, inserted, post, ts, hb, hi, rfl, rfl, hscan⟩ := h.exists_parts
  have hskip : skip (between ++ post) = skip (between ++ (inserted ++ post)) := by
    rw [(hb.gap _).skip_eq, (hb.gap _).skip_eq, (hi.gap _).skip_eq]
  have hscan' : Scans (pre ++ (between ++ (inserted ++ post))) ts
      (between ++ (inserted ++ post)) := by
    -- No token can go on into the first separator, or into the second if the first one is empty.
    cases between with
    | cons c between => exact hscan.replace (hb.head ·)
    | nil =>
      cases inserted with
      | nil => exact hscan
      | cons c inserted => exact hscan.replace (hi.head ·)
  exact ⟨lexes_of_scans hscan hscan' hskip, lexes_of_scans hscan' hscan hskip.symm⟩

end ModelText.Grammar
