import ModelText.Grammar.Nesting
import ModelText.Json.Depth
import ModelText.Proofs.Denotation
import ModelText.Proofs.Numerals

/-!
# Written JSON

The text of a value has the tokens of a tree (`Json.tree`), in either layout and in front of anything
that does not go on with the last of them (`Json.scans_render`). The tree means the value, as long as
members stand in order (`Json.means_tree`): each of them has a name of its own then, so no member is
lost. It nests as deep as the value does (`Json.depth_tree`).
-/

namespace ModelText

namespace Grammar

open Json (escape stringText hexDigit)
open Json.Reader (hexValues? shortEscape?)

/-! ### Strings -/

/-- The four digits that a control character is written with are read back as its number. -/
theorem hexValues?_control {n : Nat} (h : n < 0x20) :
    hexValues? '0' '0' (hexDigit (n / 16)) (hexDigit (n % 16)) = some n := by
  -- There are few enough to try them all.
  have hall : ∀ m : Fin 0x20,
      hexValues? '0' '0' (hexDigit (m.val / 16)) (hexDigit (m.val % 16)) = some m.val := by decide
  exact hall ⟨n, h⟩

/-- A character is written as itself or as an escape that stands for it. -/
theorem unescapes_escape_append (c : Char) {body ds : List Char} (h : Unescapes body ds) :
    Unescapes (escape c ++ body) (c :: ds) := by
  have hletter : ∀ {e : Char}, shortEscape? e = some c → Unescapes (['\\', e] ++ body) (c :: ds) :=
    fun he => .escape (.letter he) h
  -- Seven characters have a letter, the other control characters are escaped by number, and the
  -- rest stand for themselves.
  unfold escape
  split
  · next hc => subst hc; exact hletter rfl
  split
  · next hc => subst hc; exact hletter rfl
  split
  · next hc => subst hc; exact hletter rfl
  split
  · next hc => subst hc; exact hletter rfl
  split
  · next hc => subst hc; exact hletter rfl
  split
  · next hc => subst hc; exact hletter rfl
  split
  · next hc => subst hc; exact hletter rfl
  split
  · next hcontrol =>
    have hesc := Escape.number (hexValues?_control hcontrol) (by omega)
    rw [Char.ofNat_toNat] at hesc
    exact .escape hesc h
  · next hquote hbackslash _ _ _ _ _ hcontrol =>
    exact .plain hquote hbackslash (Nat.not_lt.mp hcontrol) h

/-- What is written for a string is read back as the string, character by character. -/
theorem unescapes_flatMap_escape (cs : List Char) : Unescapes (cs.flatMap escape) cs := by
  -- By induction on the string.
  induction cs with
  | nil => exact .nil
  | cons c cs ih =>
    rw [List.flatMap_cons]
    exact unescapes_escape_append c ih

/-- **Strings.** The text of a string is a literal that means the string. -/
theorem stringMeans_stringText (s : String) : StringMeans (stringText s) s :=
  ⟨s.toList.flatMap escape, rfl, unescapes_flatMap_escape s.toList⟩

/-- An escape may stand in a string, whichever it is. -/
theorem Escape.isStringBody_append {esc body : List Char} {c : Char} (h : Escape esc c)
    (hbody : IsStringBody body) : IsStringBody ('\\' :: (esc ++ body)) := by
  cases h with
  | letter he => exact .letter (by rw [he]; rfl) hbody
  | number hhex => exact .number (by rw [hhex]; rfl) hbody
  | pair hhex _ hhex' _ => exact .number (by rw [hhex]; rfl) (.number (by rw [hhex']; rfl) hbody)

/-- What means a string is spelled as a string literal. -/
theorem StringMeans.isString {raw : List Char} {s : String} (h : StringMeans raw s) :
    IsString raw := by
  obtain ⟨body, rfl, hbody⟩ := h
  refine ⟨body, ?_, rfl⟩
  -- By induction on what the body stands for, of which the spelling keeps only that it is well
  -- formed.
  generalize s.toList = ds at hbody
  induction hbody with
  | nil => exact .nil
  | plain hquote hescape _ _ ih => exact .plain hquote hescape ih
  | escape hesc _ ih => exact hesc.isStringBody_append ih

/-! ### Tokens in front of a text -/

/-- A token that is spelled out is the one at that place, if the text breaks after it. -/
theorem Token.Spelled.scans {t : Token} {w rest : List Char} (h : t.Spelled w)
    (hrest : Breaks rest) : Scans (w ++ rest) [t] rest := by
  have hat := h.at_of_breaks hrest
  exact ⟨rest, by rwa [hat.skip_eq], rfl⟩

/-- A string literal ends with its quote, whatever comes after it. -/
theorem scans_string {w : List Char} (h : IsString w) (rest : List Char) :
    Scans (w ++ rest) [.string w] rest := by
  have hat : (Token.string w).At (w ++ rest) rest :=
    Token.at_string_iff.mpr (stringLiteral_append h rest)
  exact ⟨rest, by rwa [hat.skip_eq], rfl⟩

/-- So does a punctuation mark. -/
theorem scans_mark {c : Char} (h : c ∈ marks) {cs rest : List Char} {ts : List Token}
    (hts : Scans cs ts rest) : Scans (c :: cs) (.mark c :: ts) rest := by
  have hat : (Token.mark c).At (c :: cs) cs := Token.at_mark_iff.mpr ⟨h, rfl⟩
  exact ⟨cs, by rwa [hat.skip_eq], hts⟩

/-- A gap in front of tokens can be left out. -/
theorem scans_of_gap {cs mid rest : List Char} {ts : List Token} (hgap : Gap cs mid) (hts : ts ≠ [])
    (h : Scans mid ts rest) : Scans cs ts rest :=
  (scans_iff_of_skip_eq hts hgap.skip_eq).mpr h

/-- Tokens that are met one after the other are met together. -/
theorem Scans.append {cs mid rest : List Char} {ts us : List Token} (h : Scans cs ts mid)
    (h' : Scans mid us rest) : Scans cs (ts ++ us) rest :=
  scans_append.mpr ⟨mid, h, h'⟩

end Grammar

namespace Json

open Grammar

/-! ### The tree of a value -/

mutual

/-- The tree of the text of a value. -/
def tree : Json → Tree.Value
  | .null => .word "null".toList
  | .bool true => .word "true".toList
  | .bool false => .word "false".toList
  | .number n => .number n.text
  | .string s => .string (stringText s)
  | .array items => .array (treeItems items)
  | .object members => .object (treeMembers members)

/-- The trees of items. -/
def treeItems : List Json → List Tree.Value
  | [] => []
  | j :: js => j.tree :: treeItems js

/-- The names of members as they are written, and the trees of their values. -/
def treeMembers : List (String × Json) → List (List Char × Tree.Value)
  | [] => []
  | (name, j) :: ms => (stringText name, j.tree) :: treeMembers ms

end

mutual

/-- A value is written as deep as it is. -/
theorem depth_tree : ∀ j : Json, j.tree.depth = j.depth
  | .null | .bool true | .bool false | .number _ | .string _ => rfl
  | .array items => by rw [tree, Tree.Value.depth, depth, depth_treeItems]
  | .object members => by rw [tree, Tree.Value.depth, depth, depth_treeMembers]

theorem depth_treeItems : ∀ js : List Json, Tree.itemsDepth (treeItems js) = depthItems js
  | [] => rfl
  | j :: js => by rw [treeItems, Tree.itemsDepth, depthItems, depth_tree, depth_treeItems]

theorem depth_treeMembers : ∀ ms : List (String × Json),
    Tree.membersDepth (treeMembers ms) = depthMembers ms
  | [] => rfl
  | (_, j) :: ms => by
    rw [treeMembers, Tree.membersDepth, depthMembers, depth_tree, depth_treeMembers]

end

/-! ### Tokens of a value -/

/-- The blanks of an indentation are a gap. -/
theorem gap_blanks (n : Nat) (rest : List Char) : Gap (List.replicate n ' ' ++ rest) rest := by
  -- By induction on the number of blanks.
  induction n with
  | zero => exact .none rest
  | succ n ih => exact .blank rfl ih

/-- So is a new line with its indentation. The compact layout has nothing in its place. -/
theorem gap_newline (layout : Layout) (rest : List Char) : Gap (layout.newline ++ rest) rest := by
  cases layout with
  | compact => exact .none rest
  | pretty level => exact .blank rfl (gap_blanks _ rest)

/-- What breaks a token does so in front of a new line, too. -/
theorem breaks_newline (layout : Layout) {rest : List Char} (h : Breaks rest) :
    Breaks (layout.newline ++ rest) := by
  cases layout with
  | compact => exact h
  | pretty level => exact breaks_cons (by decide) _

/-- Every value has a token. -/
theorem tokens_ne_nil (v : Tree.Value) : v.tokens ≠ [] := by
  cases v <;> simp [Tree.Value.tokens]

theorem itemTokens_ne_nil (vs : List Tree.Value) : Tree.itemTokens vs ≠ [] := by
  cases vs <;> simp [Tree.itemTokens, tokens_ne_nil]

theorem memberTokens_ne_nil (ms : List (List Char × Tree.Value)) : Tree.memberTokens ms ≠ [] := by
  cases ms <;> simp [Tree.memberTokens]

/-- A punctuation mark and the line break that may come after it. -/
theorem scans_mark_newline (layout : Layout) {c : Char} (h : c ∈ marks) {cs rest : List Char}
    {ts : List Token} (hts : ts ≠ []) (hscan : Scans cs ts rest) :
    Scans (c :: (layout.newline ++ cs)) (.mark c :: ts) rest :=
  scans_mark h (scans_of_gap (gap_newline layout cs) hts hscan)

/-- The line break that may come in front of a closing mark, and the mark. -/
theorem scans_newline_mark (layout : Layout) {c : Char} (h : c ∈ marks) (rest : List Char) :
    Scans (layout.newline ++ c :: rest) [.mark c] rest :=
  scans_of_gap (gap_newline layout _) (by simp) (scans_mark h rfl)

/-- A colon is met whether a blank follows it or not. -/
theorem scans_colon (layout : Layout) {cs rest : List Char} {ts : List Token} (hts : ts ≠ [])
    (h : Scans cs ts rest) : Scans (layout.colon ++ cs) (.mark ':' :: ts) rest := by
  cases layout with
  | compact => exact scans_mark (by decide) h
  | pretty _ => exact scans_mark (by decide) (scans_of_gap (.blank rfl (.none cs)) hts h)

/-- A name between quotes, a colon and what comes after it. -/
theorem scans_name (layout : Layout) (name : String) {cs rest : List Char} {ts : List Token}
    (hts : ts ≠ []) (h : Scans cs ts rest) :
    Scans (stringText name ++ (layout.colon ++ cs)) (.string (stringText name) :: .mark ':' :: ts)
      rest :=
  (scans_string (stringMeans_stringText name).isString _).append (scans_colon layout hts h)

/-- A word is met where what follows breaks it. -/
theorem scans_word {w rest : List Char} (hw : w ∈ literalWords) (hrest : Breaks rest) :
    Scans (w ++ rest) [.word w] rest :=
  Token.Spelled.scans (.word hw) hrest

/-- A comma breaks any token. -/
theorem breaks_comma (rest : List Char) : Breaks (',' :: rest) :=
  breaks_cons (by decide) rest

mutual

/-- **Values.** The text of a value has the tokens of its tree, unless what follows goes on with the
last of them. -/
theorem scans_render (layout : Layout) : ∀ (j : Json) {rest : List Char}, Breaks rest →
    Scans (render layout j ++ rest) j.tree.tokens rest
  | .null, _, hrest => scans_word (w := "null".toList) (by decide) hrest
  | .bool true, _, hrest => scans_word (w := "true".toList) (by decide) hrest
  | .bool false, _, hrest => scans_word (w := "false".toList) (by decide) hrest
  | .number n, _, hrest => Token.Spelled.scans (.number (numberMeans_text n).isNumber) hrest
  | .string s, _, _ => scans_string (stringMeans_stringText s).isString _
  | .array [], rest, _ => scans_mark (c := '[') (by decide) (scans_mark (by decide) rfl)
  | .array (j :: js), rest, _ => by
    -- From the closing bracket forward, so that what follows each part is known to break it.
    have hbreaks : Breaks (layout.newline ++ ']' :: rest) :=
      breaks_newline layout (breaks_cons (by decide) rest)
    have hitems := scans_renderItems layout.inner (j :: js) (by simp) hbreaks
      (scans_newline_mark layout (by decide) rest)
    have harray := scans_mark_newline layout.inner (c := '[') (by decide) (itemTokens_ne_nil _) hitems
    simpa [render, tree, Tree.Value.tokens] using harray
  | .object [], rest, _ => scans_mark (c := '\x7b') (by decide) (scans_mark (by decide) rfl)
  | .object (m :: ms), rest, _ => by
    have hbreaks : Breaks (layout.newline ++ '\x7d' :: rest) :=
      breaks_newline layout (breaks_cons (by decide) rest)
    have hmembers := scans_renderMembers layout.inner (m :: ms) (by simp) hbreaks
      (scans_newline_mark layout (by decide) rest)
    have hobject :=
      scans_mark_newline layout.inner (c := '\x7b') (by decide) (memberTokens_ne_nil _) hmembers
    simpa [render, tree, Tree.Value.tokens] using hobject

/-- The text of items, and a closing bracket after it, has the tokens of their trees. -/
theorem scans_renderItems (layout : Layout) : ∀ (js : List Json) {close rest : List Char},
    js ≠ [] → Breaks close → Scans close [.mark ']'] rest →
      Scans (renderItems layout js ++ close) (Tree.itemTokens (treeItems js)) rest
  | [], _, _, hjs, _, _ => absurd rfl hjs
  | [j], _, _, _, hbreaks, hclose => (scans_render layout j hbreaks).append hclose
  | j :: k :: js, close, rest, _, hbreaks, hclose => by
    have hmore := scans_renderItems layout (k :: js) (by simp) hbreaks hclose
    have hcomma :=
      scans_mark_newline layout (c := ',') (by decide) (itemTokens_ne_nil _) hmore
    have hitem := (scans_render layout j (breaks_comma _)).append hcomma
    simpa [renderItems, treeItems, Tree.itemTokens, Tree.moreItemTokens] using hitem

/-- The text of members, and a closing brace after it, has the tokens of their trees. -/
theorem scans_renderMembers (layout : Layout) :
    ∀ (ms : List (String × Json)) {close rest : List Char}, ms ≠ [] → Breaks close →
      Scans close [.mark '\x7d'] rest →
      Scans (renderMembers layout ms ++ close) (Tree.memberTokens (treeMembers ms)) rest
  | [], _, _, hms, _, _ => absurd rfl hms
  | [(name, j)], close, rest, _, hbreaks, hclose => by
    have hvalue := (scans_render layout j hbreaks).append hclose
    have hmember := scans_name layout name (by simp) hvalue
    simpa [renderMembers, treeMembers, Tree.memberTokens, Tree.moreMemberTokens] using hmember
  | (name, j) :: m :: ms, close, rest, _, hbreaks, hclose => by
    have hmore := scans_renderMembers layout (m :: ms) (by simp) hbreaks hclose
    have hcomma :=
      scans_mark_newline layout (c := ',') (by decide) (memberTokens_ne_nil _) hmore
    have hvalue := (scans_render layout j (breaks_comma _)).append hcomma
    have hmember := scans_name layout name (by simp) hvalue
    obtain ⟨name', k⟩ := m
    simpa [renderMembers, treeMembers, Tree.memberTokens, Tree.moreMemberTokens] using hmember

end

/-! ### Meaning -/

/-- A name above all others goes to the end. -/
theorem insertMember_eq_append {name : String} {value : Json} {ms : List (String × Json)}
    (h : ∀ m ∈ ms, m.1 < name) : insertMember name value ms = ms ++ [(name, value)] := by
  induction ms with
  | nil => rfl
  | cons m ms ih =>
    obtain ⟨n, v⟩ := m
    obtain ⟨hn, hms⟩ := List.forall_mem_cons.mp h
    have hlt : ¬ name < n := String.lt_asymm hn
    have hne : name ≠ n := fun heq => String.lt_irrefl n (heq ▸ hn)
    rw [insertMember, if_neg hlt, if_neg hne, ih hms]
    rfl

/-- Members that are in order already are put in order as they are. -/
theorem insertMembers_eq_append {new ms : List (String × Json)}
    (h : (ms ++ new).Pairwise (·.1 < ·.1)) : insertMembers new ms = ms ++ new := by
  induction new generalizing ms with
  | nil => rw [List.append_nil]; rfl
  | cons m new ih =>
    -- The first new member goes to the end, since all that are there stand below it.
    have hbelow : ∀ n ∈ ms, n.1 < m.1 := fun n hn =>
      (List.pairwise_append.mp h).2.2 n hn m List.mem_cons_self
    have hstep : insertMembers (m :: new) ms = insertMembers new (insertMember m.1 m.2 ms) := rfl
    rw [List.append_cons ms m new] at h
    rw [hstep, insertMember_eq_append hbelow, List.append_cons ms m new]
    exact ih h

/-- Members in ascending order are an object as they stand. -/
theorem insertMembers_nil {ms : List (String × Json)} (h : ms.Pairwise (·.1 < ·.1)) :
    insertMembers ms [] = ms :=
  insertMembers_eq_append h

mutual

/-- **Meaning.** The tree of a value in order means the value. -/
theorem means_tree : ∀ j : Json, j.Ordered → j.tree.Means j
  | .null, _ => .null
  | .bool true, _ => .true
  | .bool false, _ => .false
  | .number n, _ => ⟨n, numberMeans_text n, rfl⟩
  | .string s, _ => ⟨s, stringMeans_stringText s, rfl⟩
  | .array items, h => ⟨items, itemsMean_treeItems items h, rfl⟩
  | .object members, ⟨hascending, h⟩ =>
    ⟨members, membersMean_treeMembers members h, by rw [insertMembers_nil hascending]⟩

/-- Items mean themselves. -/
theorem itemsMean_treeItems : ∀ js : List Json, OrderedItems js → Tree.ItemsMean (treeItems js) js
  | [], _ => rfl
  | j :: js, ⟨hj, hjs⟩ => ⟨j, js, means_tree j hj, itemsMean_treeItems js hjs, rfl⟩

/-- So do members, with their names, if they are in order. -/
theorem membersMean_treeMembers : ∀ ms : List (String × Json), OrderedMembers ms →
    Tree.MembersMean (treeMembers ms) ms
  | [], _ => rfl
  | (name, j) :: ms, ⟨hj, hms⟩ => ⟨name, j, ms, stringMeans_stringText name, means_tree j hj,
      membersMean_treeMembers ms hms, rfl⟩

end

end Json

end ModelText
