import ModelText.Proofs.Nesting
import ModelText.Proofs.Reading

/-!
# Where the descent goes

A phrase says what it recognises and not where it looks on the way. A `Walk` is a phrase together with
the places that it looks at: what is left of the text there, and how many objects and arrays are open.
Walks are combined as phrases are, failed attempts included, so the whole grammar is a walk
(`Walk.document`) and forgets to the phrase that reads a document (`Walk.phrase_document`).

The scan for brackets goes ahead of the descent. A walk *keeps* the scan if wherever it looks the scan
stands in code, with just as many containers open, and meets nothing that nests too deep from there on
(`Walk.Keeps`). Each part of the grammar does so (`Walk.balanced_document`): a token that is recognised
takes the scan along, and a failed attempt is given up at the place where it began. So no place that
the descent reaches has more containers open than the scan lets pass, whether the text is a document
or not.
-/

namespace ModelText.Grammar

/-- The lexeme takes only characters at which the scan stays in code, with nothing opened or closed. -/
def Lexeme.TakesPlain (l : Lexeme) : Prop :=
  ∀ ⦃cs w rest⦄, l cs = some (w, rest) → ∃ v, cs = v ++ rest ∧ ∀ c ∈ v, IsPlain c

/-- A lexeme takes plain characters if its language consists of solid ones. -/
theorem Lexeme.Munches.takesPlain {l : Lexeme} {L : List Char → Prop} (hl : l.Munches L)
    (hsolid : ∀ {w}, L w → ∀ c ∈ w, isSolid c) : l.TakesPlain := by
  intro cs w rest h
  obtain ⟨hcs, hw⟩ := hl.sound h
  exact ⟨w, hcs, fun c hc => isPlain_of_isSolid (hsolid hw c hc)⟩

/-- A fixed text is plain if its characters are, which can be evaluated. -/
theorem takesPlain_exactly {text : List Char} (htext : text.all fun c => decide (IsPlain c)) :
    Lexeme.TakesPlain (exactly text) :=
  fun _ _ _ h => ⟨text, (exactly_eq_some_iff.mp h).2, forall_isPlain htext⟩

theorem takesPlain_importKeyword : Lexeme.TakesPlain importKeyword :=
  fun _ _ _ h => ⟨_, (Phrase.importKeyword_eq_some_iff.mp h).2.1, forall_isPlain (by decide)⟩

/-- An import path takes the star behind it as well, and that is plain. -/
theorem takesPlain_importPath : Lexeme.TakesPlain importPath := by
  intro cs path rest h
  obtain ⟨rfl, hpath⟩ := munches_qualifiedName.sound (importPath_eq_some_iff.mp h)
  -- The characters taken are those of the path and then the two colons and the star.
  refine ⟨path ++ [':', ':', '*'], by simp, List.forall_mem_append.mpr ⟨fun c hc => ?_, ?_⟩⟩
  · exact isPlain_of_isSolid (hpath.solid c hc)
  · exact forall_isPlain (by decide)

/-- The literal words are spelled like names. -/
theorem takesPlain_boolLiteral : Lexeme.TakesPlain boolLiteral := by
  intro cs w rest h
  obtain ⟨hw, hcs⟩ := Phrase.boolLiteral_eq_some h
  exact ⟨w, hcs, fun c hc => isPlain_of_isSolid ((isName_of_mem_literalWords hw).solid c hc)⟩

/-- A place in a text: what is left of the text there, and how many containers are open. -/
structure Place where
  opened : Nat
  rest : List Char

/-- A phrase and the places that it looks at, given where it begins. -/
structure Walk (α : Type) where
  phrase : Phrase α
  places : Nat → List Char → List Place

namespace Walk

variable {α β : Type}

/-! ### Combining walks -/

/-- Looks at nothing. -/
def pure (a : α) : Walk α where
  phrase := Phrase.pure a
  places _ _ := []

/-- Goes on from where the first walk ends, if it succeeds. -/
def bind (p : Walk α) (f : α → Walk β) : Walk β where
  phrase := Phrase.bind p.phrase fun a => (f a).phrase
  places opened cs := p.places opened cs ++
    match (p.phrase cs).result with
    | none => []
    | some (a, rest) => (f a).places opened rest

instance : Monad Walk where
  pure := Walk.pure
  bind := Walk.bind

/-- Goes back to where the first walk began, if it fails. -/
def orElse (p q : Walk α) : Walk α where
  phrase := Phrase.orElse p.phrase q.phrase
  places opened cs := p.places opened cs ++
    match (p.phrase cs).result with
    | none => q.places opened cs
    | some _ => []

/-- Looks at the text where it begins. -/
def look (p : Phrase α) : Walk α where
  phrase := p
  places opened cs := [⟨opened, cs⟩]

/-- A walk inside one more container. -/
def inside (p : Walk α) : Walk α where
  phrase := p.phrase
  places opened cs := p.places (opened + 1) cs

/-- A named rule. -/
def rule (r : Rule) (p : Walk α) : Walk α where
  phrase := Phrase.rule r p.phrase
  places := p.places

/-- A walk that depends on the text where it begins. -/
def onText (f : List Char → Walk α) : Walk α where
  phrase cs := (f cs).phrase cs
  places opened cs := (f cs).places opened cs

/-- The text at this point. -/
def here : Walk (List Char) :=
  look Phrase.here

/-- Blanks and comments. -/
def blanks : Walk Unit :=
  look Phrase.blanks

/-- A token. -/
def lexeme (l : Lexeme) : Walk (List Char) :=
  look (Phrase.lexeme l)

/-- A fixed token. -/
def token (text : String) : Walk (List Char) :=
  look (Phrase.token text)

/-- Tries a walk. -/
def optional (p : Walk α) : Walk (Option α) :=
  orElse (p >>= fun a => Pure.pure (some a)) (Pure.pure none)

/-- A walk as often as it goes, `limit` times at most. -/
def upTo (p : Walk α) : Nat → Walk (List α)
  | 0 => Pure.pure []
  | limit + 1 => do
    match ← optional p with
    | none => return []
    | some a =>
      let more ← upTo p limit
      return a :: more

/-- A walk as often as it goes, with blanks in between. -/
def many (p : Walk α) : Walk (List α) :=
  onText fun cs => do
    match ← optional p with
    | none => return []
    | some a =>
      let more ← upTo (do blanks; p) cs.length
      return a :: more

/-! ### The grammar

Each walk goes as the phrase of the same name does. -/

def commaSeparated (p : Walk α) : Walk (List α) := do
  let first ← p
  blanks
  let more ← many do
    let _ ← token ","
    blanks
    p
  return first :: more

/-- A list between brackets. The container is open between them. -/
def bracketed (opening closing : String) (p : Walk α) : Walk (List α) :=
  orElse
    (do
      let _ ← token opening
      inside do
        blanks
        let _ ← token closing
        return [])
    (do
      let _ ← token opening
      inside do
        blanks
        let all ← commaSeparated p
        blanks
        let _ ← token closing
        return all)

def scalar (r : Rule) (l : Lexeme) : Walk Scalar :=
  rule r do
    let start ← here
    let raw ← lexeme l
    return ⟨raw, start⟩

def member (value : Walk Literal) : Walk (Scalar × Literal) :=
  rule .member do
    let name ← scalar .string stringLiteral
    blanks
    let _ ← token ":"
    blanks
    let v ← value
    return (name, v)

def members (value : Walk Literal) : Walk (List (Scalar × Literal)) :=
  rule .object (bracketed "\x7b" "\x7d" (member value))

def object (value : Walk Literal) : Walk Literal := do
  let start ← here
  let members ← members value
  return .object start members

def array (value : Walk Literal) : Walk Literal :=
  rule .array do
    let start ← here
    let items ← bracketed "[" "]" value
    return .array start items

def scalarValue (r : Rule) (l : Lexeme) : Walk Literal := do
  let s ← scalar r l
  return .scalar s

def value : Nat → Walk Literal
  | 0 => look Phrase.never
  | nesting + 1 =>
    orElse (object (value nesting)) <|
    orElse (array (value nesting)) <|
    orElse (scalarValue .string stringLiteral) <|
    orElse (scalarValue .number numberLiteral) <|
    orElse (scalarValue .jsonBool boolLiteral) <|
    scalarValue .jsonNull nullLiteral

def body : Walk (List (Scalar × Literal)) :=
  onText fun cs => members (value cs.length)

def declaration : Walk Entry :=
  rule .declaration do
    let start ← here
    let kind ← rule .elementKind (lexeme identifier)
    blanks
    let path ← rule .qualifiedName (lexeme qualifiedName)
    blanks
    let body ← body
    let stop ← here
    return ⟨kind, path, body, start, stop⟩

def importStatement : Walk (List Char) :=
  rule .importStatement do
    let _ ← rule .importKeyword (lexeme importKeyword)
    blanks
    let path ← rule .importPath (lexeme importPath)
    blanks
    let _ ← token ";"
    return path

def sectionHeader : Walk (List Char) :=
  rule .sectionHeader do
    let _ ← lexeme headerMark
    rule .identifier (lexeme identifier)

def leadingBlock : Walk Block :=
  rule .leadingSection do
    let start ← here
    let imports ← many importStatement
    blanks
    let entries ← many declaration
    let stop ← here
    return ⟨none, imports, entries, start, stop⟩

def headedBlock : Walk Block :=
  rule .sectionBlock do
    let start ← here
    let name ← sectionHeader
    blanks
    let imports ← many importStatement
    blanks
    let entries ← many declaration
    let stop ← here
    return ⟨some name, imports, entries, start, stop⟩

def document : Walk Document :=
  rule .document do
    blanks
    let leading ← leadingBlock
    blanks
    let sections ← many headedBlock
    blanks
    look Phrase.endOfInput
    return ⟨leading, sections⟩

/-! ### The phrase of a walk -/

/-- Forgetting the places of a walk leaves a phrase, and every way of combining walks becomes the one for
phrases. The lemmas below go through the grammar in this way, from the combinators up to the document. -/
@[simp] theorem phrase_bind (p : Walk α) (f : α → Walk β) :
    (p >>= f).phrase = p.phrase >>= fun a => (f a).phrase := rfl

@[simp] theorem phrase_orElse (p q : Walk α) :
    (orElse p q).phrase = Phrase.orElse p.phrase q.phrase := rfl

@[simp] theorem phrase_inside (p : Walk α) : (inside p).phrase = p.phrase := rfl

@[simp] theorem phrase_rule (r : Rule) (p : Walk α) :
    (rule r p).phrase = Phrase.rule r p.phrase := rfl

@[simp] theorem phrase_optional (p : Walk α) :
    (optional p).phrase = Phrase.optional p.phrase := rfl

/-- A repetition of walks is a repetition of their phrases. -/
@[simp] theorem phrase_upTo (p : Walk α) (limit : Nat) :
    (upTo p limit).phrase = Phrase.upTo p.phrase limit := by
  -- By induction on the bound: one round, and those after it if it has found anything.
  induction limit with
  | zero => rfl
  | succ limit ih =>
    rw [upTo, Phrase.upTo, phrase_bind, phrase_optional]
    refine congrArg _ (funext fun found => ?_)
    cases found with
    | none => rfl
    | some a => rw [← ih]; rfl

/-- It is the same where the text gives the bound. -/
@[simp] theorem phrase_many (p : Walk α) : (many p).phrase = Phrase.many p.phrase := by
  funext cs
  refine congrFun (congrArg (Phrase.optional p.phrase >>= ·) (funext fun found => ?_)) cs
  cases found with
  | none => rfl
  | some a =>
    show (upTo (do blanks; p) cs.length).phrase >>= _ = _
    rw [phrase_upTo]
    rfl

@[simp] theorem phrase_commaSeparated (p : Walk α) :
    (commaSeparated p).phrase = Phrase.commaSeparated p.phrase := by
  simp only [commaSeparated, phrase_bind, phrase_many]
  rfl

/-- That the parts of a list are inside a container is not seen by the phrase. -/
@[simp] theorem phrase_bracketed (opening closing : String) (p : Walk α) :
    (bracketed opening closing p).phrase = Phrase.bracketed opening closing p.phrase := by
  simp only [bracketed, phrase_orElse, phrase_bind, phrase_inside, phrase_commaSeparated]
  rfl

@[simp] theorem phrase_members (value : Walk Literal) :
    (members value).phrase = Phrase.members value.phrase := by
  rw [members, phrase_rule, phrase_bracketed]
  rfl

@[simp] theorem phrase_array (value : Walk Literal) :
    (array value).phrase = Phrase.array value.phrase := by
  simp only [array, phrase_rule, phrase_bind, phrase_bracketed]
  rfl

@[simp] theorem phrase_object (value : Walk Literal) :
    (object value).phrase = Phrase.object value.phrase := by
  simp only [object, phrase_bind, phrase_members]
  rfl

/-- The values of the walk are those of the grammar, for as many containers as may open. -/
@[simp] theorem phrase_value (nesting : Nat) : (value nesting).phrase = Phrase.value nesting := by
  -- By induction on the containers that may still open.
  induction nesting with
  | zero => rfl
  | succ nesting ih =>
    simp only [value, phrase_orElse, phrase_object, phrase_array, ih]
    rfl

@[simp] theorem phrase_body : body.phrase = Phrase.body := by
  funext cs
  show (members (value cs.length)).phrase cs = _
  rw [phrase_members, phrase_value, Phrase.body]

@[simp] theorem phrase_declaration : declaration.phrase = Phrase.declaration := by
  simp only [declaration, phrase_rule, phrase_bind, phrase_body]
  rfl

@[simp] theorem phrase_leadingBlock : leadingBlock.phrase = Phrase.leadingBlock := by
  simp only [leadingBlock, phrase_rule, phrase_bind, phrase_many, phrase_declaration]
  rfl

@[simp] theorem phrase_headedBlock : headedBlock.phrase = Phrase.headedBlock := by
  simp only [headedBlock, phrase_rule, phrase_bind, phrase_many, phrase_declaration]
  rfl

/-- The walk through the grammar is the descent that reads a document. -/
theorem phrase_document : document.phrase = Phrase.document := by
  simp only [document, phrase_rule, phrase_bind, phrase_many, phrase_leadingBlock,
    phrase_headedBlock]
  rfl

/-! ### Keeping the scan -/

/-- At the place the scan is in code, with as many containers open, and meets nothing that nests too
deep from there on. -/
def Seen (limit : Nat) (place : Place) : Prop :=
  place.opened ≤ limit ∧ Clear limit place.opened place.rest

/-- Begun at a place that the scan sees with `before` containers open, the walk looks only at places
that the scan sees, and ends at one with `after` containers open. The walk itself counts from
`opened`. -/
structure Keeps (limit opened before after : Nat) (p : Walk α) : Prop where
  places {cs : List Char} : Seen limit ⟨before, cs⟩ →
    ∀ place ∈ p.places opened cs, Seen limit place
  rest {cs rest : List Char} {a : α} : Seen limit ⟨before, cs⟩ →
    (p.phrase cs).result = some (a, rest) → Seen limit ⟨after, rest⟩

/-- A walk that closes what it opens. -/
def Balanced (limit : Nat) (p : Walk α) : Prop :=
  ∀ opened, Keeps limit opened opened opened p

variable {limit opened before mid after : Nat}

/-- A walk that goes nowhere visits no place, and so keeps the scan as it is. -/
theorem keeps_pure (a : α) : Keeps limit opened before before (Pure.pure a : Walk α) where
  places _ _ h := absurd h List.not_mem_nil
  rest h ha := by
    cases ha
    exact h

/-- One walk after another: the second takes up the scan where the first has left it. -/
theorem Keeps.bind {p : Walk α} {f : α → Walk β} (hp : Keeps limit opened before mid p)
    (hf : ∀ a, Keeps limit opened mid after (f a)) : Keeps limit opened before after (p >>= f) where
  places {cs} h place hplace := by
    rcases List.mem_append.mp hplace with hplace | hplace
    · exact hp.places h place hplace
    · -- The second walk begins where the first one has ended.
      split at hplace
      · exact absurd hplace List.not_mem_nil
      · next a rest ha => exact (hf a).places (hp.rest h ha) place hplace
  rest h hb := by
    obtain ⟨a, rest, ha, hb⟩ := Phrase.result_bind_eq_some.mp hb
    exact (hf a).rest (hp.rest h ha) hb

/-- Of two alternatives both begin at the same place, so both must keep the scan from there. -/
theorem Keeps.orElse {p q : Walk α} (hp : Keeps limit opened before after p)
    (hq : Keeps limit opened before after q) : Keeps limit opened before after (orElse p q) where
  places {cs} h place hplace := by
    rcases List.mem_append.mp hplace with hplace | hplace
    · exact hp.places h place hplace
    · -- The second walk begins where the first one has begun.
      split at hplace
      · exact hq.places h place hplace
      · exact absurd hplace List.not_mem_nil
  rest h ha := by
    rcases Phrase.result_orElse_eq_some.mp ha with ha | ⟨-, ha⟩
    · exact hp.rest h ha
    · exact hq.rest h ha

/-- How many containers are counted as open plays no part in what the phrase keeps. -/
theorem Keeps.inside {p : Walk α} (hp : Keeps limit (opened + 1) before after p) :
    Keeps limit opened before after (inside p) where
  places := hp.places
  rest := hp.rest

/-- Neither does the name of a rule. -/
theorem Keeps.rule {p : Walk α} (hp : Keeps limit opened before after p) (r : Rule) :
    Keeps limit opened before after (rule r p) where
  places := hp.places
  rest h ha := hp.rest h ((Phrase.result_rule r p.phrase _).symm.trans ha)

/-- A single phrase visits the place where it begins, and has to keep the scan up to where it ends. -/
theorem keeps_look {p : Phrase α}
    (hp : ∀ {cs rest : List Char} {a : α}, Seen limit ⟨opened, cs⟩ →
      (p cs).result = some (a, rest) → Seen limit ⟨after, rest⟩) :
    Keeps limit opened opened after (look p) where
  places h place hplace := by
    obtain rfl := List.mem_singleton.mp hplace
    exact h
  rest := hp

/-- A walk that goes nowhere is balanced. -/
theorem balanced_pure (a : α) : Balanced limit (Pure.pure a : Walk α) :=
  fun _ => keeps_pure a

/-- Two balanced walks in a row are balanced. -/
theorem Balanced.bind {p : Walk α} {f : α → Walk β} (hp : Balanced limit p)
    (hf : ∀ a, Balanced limit (f a)) : Balanced limit (p >>= f) :=
  fun opened => (hp opened).bind fun a => hf a opened

theorem Balanced.orElse {p q : Walk α} (hp : Balanced limit p) (hq : Balanced limit q) :
    Balanced limit (orElse p q) :=
  fun opened => (hp opened).orElse (hq opened)

theorem Balanced.rule {p : Walk α} (hp : Balanced limit p) (r : Rule) : Balanced limit (rule r p) :=
  fun opened => (hp opened).rule r

/-- A walk that is chosen by the text is balanced if every choice is. -/
theorem balanced_onText {f : List Char → Walk α} (hf : ∀ cs, Balanced limit (f cs)) :
    Balanced limit (onText f) :=
  fun opened => ⟨fun h => (hf _ opened).places h, fun h ha => (hf _ opened).rest h ha⟩

/-! ### Tokens -/

theorem balanced_here : Balanced limit here := by
  refine fun opened => keeps_look fun h ha => ?_
  cases ha
  exact h

/-- Blanks and comments do not change what the scan finds behind them. -/
theorem balanced_blanks : Balanced limit blanks := by
  refine fun opened => keeps_look fun {cs _ _} h ha => ?_
  cases ha
  -- A gap has no brackets outside of its comments, and those are skipped by the scan.
  exact ⟨h.1, ((gap_skip cs).tooDeep?_eq h.1).symm.trans h.2⟩

/-- At the end there is nothing to scan. -/
theorem balanced_endOfInput : Balanced limit (look Phrase.endOfInput) := by
  refine fun opened => keeps_look fun h ha => ?_
  obtain ⟨rfl, rfl⟩ := Phrase.result_endOfInput_eq_some.mp ha
  exact h

/-- Plain characters do not, either: none of them opens or closes anything. -/
theorem balanced_lexeme {l : Lexeme} (hl : l.TakesPlain) : Balanced limit (lexeme l) := by
  refine fun opened => keeps_look fun h hw => ?_
  obtain ⟨v, rfl, hv⟩ := hl hw
  exact ⟨h.1, (tooDeep?_append hv h.1 _).symm.trans h.2⟩

/-- That goes for the fixed tokens that are not brackets. -/
theorem balanced_token {text : String} (htext : text.toList.all fun c => decide (IsPlain c)) :
    Balanced limit (token text) :=
  balanced_lexeme (takesPlain_exactly htext)

/-- Identifiers are plain. -/
theorem balanced_identifier : Balanced limit (lexeme identifier) :=
  balanced_lexeme (munches_identifier.takesPlain fun h => (IsName.word h).solid)

/-- A string is scanned as a whole, so the brackets in it do not count. -/
theorem balanced_stringLiteral : Balanced limit (lexeme stringLiteral) := by
  refine fun opened => keeps_look fun h hw => ?_
  obtain ⟨rfl, body, hbody, rfl⟩ := munches_stringLiteral.sound hw
  obtain ⟨hfits, hclear⟩ := h
  -- The scan is stated of the quote, the characters and the quote after them in this shape.
  rw [List.cons_append, List.cons_append, List.append_assoc] at hclear
  exact ⟨hfits, (tooDeep?_string hbody.quoted hfits _).symm.trans hclear⟩

section Brackets

variable {opening closing : String} {o c : Char}

/-- After an opening bracket one more container is open. -/
theorem keeps_opening (hb : Phrase.Brackets opening closing o c) (hopening : o = '\x7b' ∨ o = '[') :
    Keeps limit opened opened (opened + 1) (token opening) := by
  refine keeps_look fun h hw => ?_
  obtain ⟨-, rfl⟩ := Phrase.result_token_eq_some.mp hw
  obtain ⟨-, hclear⟩ := h
  rw [hb.opening] at hclear
  rcases hopening with rfl | rfl <;>
    exact hclear.of_cons (by decide) (noComment_of_ne (by decide) _)

/-- Only a closing bracket takes the scan down again, from where the opening one has taken it up. -/
theorem keeps_closing (hb : Phrase.Brackets opening closing o c) :
    Keeps limit (opened + 1) (opened + 1) opened (token closing) := by
  refine keeps_look fun h hw => ?_
  obtain ⟨-, rfl⟩ := Phrase.result_token_eq_some.mp hw
  obtain ⟨-, hclear⟩ := h
  rw [hb.closing] at hclear
  -- Whichever bracket it is, it closes one level and begins no comment.
  rcases hb.closes with rfl | rfl <;>
    exact hclear.of_cons (by decide) (noComment_of_ne (by decide) _)

/-! ### The grammar keeps the scan -/

/-- An optional walk is one of two alternatives. -/
theorem Balanced.optional {p : Walk α} (hp : Balanced limit p) : Balanced limit (optional p) :=
  (hp.bind fun _ => balanced_pure _).orElse (balanced_pure none)

/-- A repetition of a balanced walk is balanced. -/
theorem Balanced.upTo {p : Walk α} (hp : Balanced limit p) (n : Nat) :
    Balanced limit (upTo p n) := by
  -- By induction on the bound.
  induction n with
  | zero => exact balanced_pure []
  | succ n ih =>
    refine hp.optional.bind fun found => ?_
    cases found with
    | none => exact balanced_pure []
    | some a => exact ih.bind fun _ => balanced_pure _

/-- The same where the text gives the bound: the blanks between the rounds are balanced, too. -/
theorem Balanced.many {p : Walk α} (hp : Balanced limit p) : Balanced limit (many p) := by
  refine balanced_onText fun cs => hp.optional.bind fun found => ?_
  cases found with
  | none => exact balanced_pure []
  | some a =>
    -- Each round after the first goes over the blanks before it.
    have hmore : Balanced limit (do blanks; p) := balanced_blanks.bind fun _ => hp
    exact (hmore.upTo cs.length).bind fun _ => balanced_pure _

/-- The commas of a list do not count as brackets. -/
theorem Balanced.commaSeparated {p : Walk α} (hp : Balanced limit p) :
    Balanced limit (commaSeparated p) := by
  have hcomma : Balanced limit (do let _ ← token ","; blanks; p) :=
    (balanced_token (by decide)).bind fun _ => balanced_blanks.bind fun _ => hp
  refine hp.bind fun _ => balanced_blanks.bind fun _ => ?_
  exact hcomma.many.bind fun _ => balanced_pure _

/-- What stands between brackets has one container more open, and the closing bracket closes it. -/
theorem Balanced.bracketed (hb : Phrase.Brackets opening closing o c)
    (hopening : o = '\x7b' ∨ o = '[') {p : Walk α} (hp : Balanced limit p) :
    Balanced limit (bracketed opening closing p) := by
  intro opened
  have hclose {γ : Type} (a : γ) : Keeps limit (opened + 1) (opened + 1) opened
      (do blanks; let _ ← token closing; return a) :=
    (balanced_blanks _).bind fun _ => (keeps_closing hb).bind fun _ => keeps_pure a
  refine Keeps.orElse ?_ ?_
  · exact (keeps_opening hb hopening).bind fun _ => Keeps.inside (hclose [])
  · refine (keeps_opening hb hopening).bind fun _ => Keeps.inside ?_
    refine (balanced_blanks _).bind fun _ => ?_
    exact (hp.commaSeparated (opened + 1)).bind fun all => hclose all

end Brackets

/-- A scalar is as balanced as its lexeme. -/
theorem Balanced.scalar {l : Lexeme} (hl : Balanced limit (lexeme l)) (r : Rule) :
    Balanced limit (scalar r l) :=
  (balanced_here.bind fun _ => hl.bind fun _ => balanced_pure _).rule r

theorem Balanced.scalarValue {l : Lexeme} (hl : Balanced limit (lexeme l)) (r : Rule) :
    Balanced limit (scalarValue r l) :=
  (hl.scalar r).bind fun _ => balanced_pure _

/-- A member is balanced if values are. -/
theorem Balanced.member {value : Walk Literal} (hvalue : Balanced limit value) :
    Balanced limit (member value) := by
  -- The name, the colon and the value, with the blanks between them.
  refine Balanced.rule ?_ _
  refine (balanced_stringLiteral.scalar _).bind fun _ => balanced_blanks.bind fun _ => ?_
  refine (balanced_token (by decide)).bind fun _ => balanced_blanks.bind fun _ => ?_
  exact hvalue.bind fun _ => balanced_pure _

/-- The braces of an object open one container and close it. -/
theorem Balanced.members {value : Walk Literal} (hvalue : Balanced limit value) :
    Balanced limit (members value) :=
  (hvalue.member.bracketed Phrase.braces (.inl rfl)).rule _

theorem Balanced.object {value : Walk Literal} (hvalue : Balanced limit value) :
    Balanced limit (object value) :=
  balanced_here.bind fun _ => hvalue.members.bind fun _ => balanced_pure _

/-- So do the square brackets of an array. -/
theorem Balanced.array {value : Walk Literal} (hvalue : Balanced limit value) :
    Balanced limit (array value) := by
  refine Balanced.rule (balanced_here.bind fun _ => ?_) _
  exact (hvalue.bracketed Phrase.squareBrackets (.inr rfl)).bind fun _ => balanced_pure _

/-- Values are balanced. Each container in them visits one level more. -/
theorem balanced_value (nesting : Nat) : Balanced limit (value nesting) := by
  -- By induction on how deep the value may nest: its parts may nest one level less.
  induction nesting with
  | zero => exact fun _ => keeps_look nofun
  | succ nesting ih =>
    have hnumber : Balanced limit (lexeme numberLiteral) :=
      balanced_lexeme (munches_numberLiteral.takesPlain IsNumber.solid)
    have hbool : Balanced limit (lexeme boolLiteral) := balanced_lexeme takesPlain_boolLiteral
    have hnull : Balanced limit (lexeme nullLiteral) :=
      balanced_lexeme (takesPlain_exactly (by decide))
    refine ih.object.orElse (ih.array.orElse ?_)
    refine (balanced_stringLiteral.scalarValue _).orElse ((hnumber.scalarValue _).orElse ?_)
    exact (hbool.scalarValue _).orElse (hnull.scalarValue _)

/-- What a body opens it closes. -/
theorem balanced_body : Balanced limit body :=
  balanced_onText fun cs => (balanced_value cs.length).members

/-- From here on the grammar is gone through rule by rule: what is not a body takes plain characters
alone. -/
theorem balanced_declaration : Balanced limit declaration := by
  have hpath : Balanced limit (lexeme qualifiedName) :=
    balanced_lexeme (munches_qualifiedName.takesPlain IsName.solid)
  -- In the order of the rule: the place, the kind, the path, the body and the place behind it.
  refine Balanced.rule (balanced_here.bind fun _ => ?_) _
  refine (balanced_identifier.rule _).bind fun _ => balanced_blanks.bind fun _ => ?_
  refine (hpath.rule _).bind fun _ => balanced_blanks.bind fun _ => ?_
  exact balanced_body.bind fun _ => balanced_here.bind fun _ => balanced_pure _

theorem balanced_importStatement : Balanced limit importStatement := by
  have hkeyword : Balanced limit (lexeme importKeyword) := balanced_lexeme takesPlain_importKeyword
  have hpath : Balanced limit (lexeme importPath) := balanced_lexeme takesPlain_importPath
  refine Balanced.rule ?_ _
  refine (hkeyword.rule _).bind fun _ => balanced_blanks.bind fun _ => ?_
  refine (hpath.rule _).bind fun _ => balanced_blanks.bind fun _ => ?_
  exact (balanced_token (by decide)).bind fun _ => balanced_pure _

theorem balanced_sectionHeader : Balanced limit sectionHeader := by
  have hmark : Balanced limit (lexeme headerMark) :=
    balanced_lexeme (takesPlain_exactly (by decide))
  exact Balanced.rule (hmark.bind fun _ => balanced_identifier.rule _) _

theorem balanced_leadingBlock : Balanced limit leadingBlock := by
  refine Balanced.rule (balanced_here.bind fun _ => ?_) _
  refine balanced_importStatement.many.bind fun _ => balanced_blanks.bind fun _ => ?_
  exact balanced_declaration.many.bind fun _ => balanced_here.bind fun _ => balanced_pure _

theorem balanced_headedBlock : Balanced limit headedBlock := by
  refine Balanced.rule (balanced_here.bind fun _ => ?_) _
  refine balanced_sectionHeader.bind fun _ => balanced_blanks.bind fun _ => ?_
  refine balanced_importStatement.many.bind fun _ => balanced_blanks.bind fun _ => ?_
  exact balanced_declaration.many.bind fun _ => balanced_here.bind fun _ => balanced_pure _

/-- A document leaves the scan where it has begun, and every place that it visits on the way is seen by
it. -/
theorem balanced_document : Balanced limit document := by
  refine Balanced.rule (balanced_blanks.bind fun _ => ?_) _
  refine balanced_leadingBlock.bind fun _ => balanced_blanks.bind fun _ => ?_
  refine balanced_headedBlock.many.bind fun _ => balanced_blanks.bind fun _ => ?_
  exact balanced_endOfInput.bind fun _ => balanced_pure _

/-- Where the scan goes over a text without stopping, it sees every place that the descent reaches. -/
theorem seen_of_clear {text : List Char} (h : Clear limit 0 text) :
    ∀ place ∈ document.places 0 text, Seen limit place :=
  (balanced_document 0).places ⟨Nat.zero_le limit, h⟩

/-- A text that breaks off inside two arrays in a body. -/
example : ((document.places 0 "A b\x7b\"x\": [[1".toList).map Place.opened).max? = some 3 := by
  decide +kernel

end Walk

end ModelText.Grammar
