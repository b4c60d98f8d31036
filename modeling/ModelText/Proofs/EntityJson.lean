import ModelText.Entity.Json
import ModelText.Proofs.Bodies

/-!
# Entities and their JSON

The JSON form of an entity, in either layout, is read as the entity again, as long as the content nests
no deeper than the reader goes inside the object around it (`Entity.read_render_iff`). A deeper content
is not read at all: the text of an object determines what it is read as at any depth, and what is read
at a depth nests no deeper than that (`objectValue_of_spaced`).
-/

namespace ModelText

/-! ### Written JSON has no comments -/

namespace Json

open Grammar

/-- Line breaks and indentations open no comment. The next lemmas go through whatever else JSON is written
with. -/
theorem opensComment_newline (layout : Layout) (cs : List Char) :
    opensComment false (layout.newline ++ cs) = opensComment false cs := by
  refine opensComment_append fun c hc => isPlain_of_isBlank ?_
  cases layout with
  | compact => cases hc
  | pretty level =>
    rcases List.mem_cons.mp hc with rfl | hc
    · rfl
    · rw [List.eq_of_mem_replicate hc]
      rfl

theorem opensComment_colon (layout : Layout) (cs : List Char) :
    opensComment false (layout.colon ++ cs) = opensComment false cs := by
  cases layout <;> rfl

/-- A string opens no comment, whatever is in it. -/
theorem opensComment_stringText (s : String) (cs : List Char) :
    opensComment false (stringText s ++ cs) = opensComment false cs := by
  have hat : (Token.string (stringText s)).At (stringText s ++ cs) cs :=
    Token.at_string_iff.mpr (stringLiteral_append (stringMeans_stringText s).isString cs)
  exact hat.opensComment_eq

theorem opensComment_comma (layout : Layout) (cs : List Char) :
    opensComment false (',' :: (layout.newline ++ cs)) = opensComment false cs := by
  rw [opensComment_cons (by decide) (by decide), opensComment_newline]

mutual

/-- No comment opens in the text of a value. -/
theorem opensComment_render (layout : Layout) : ∀ (j : Json) {rest : List Char}, Breaks rest →
    opensComment false (render layout j ++ rest) = opensComment false rest
  | .null, _, _ | .bool true, _, _ | .bool false, _, _ => rfl
  | .number n, _, hrest =>
    (Token.Spelled.at_of_breaks (.number (numberMeans_text n).isNumber) hrest).opensComment_eq
  | .string s, _, _ => opensComment_stringText s _
  | .array [], _, _ => rfl
  | .array (j :: js), rest, _ => by
    have hclose : Breaks (layout.newline ++ ']' :: rest) :=
      breaks_newline layout (breaks_cons (by decide) rest)
    have htext : render layout (.array (j :: js)) ++ rest = '[' :: (layout.inner.newline ++
        (renderItems layout.inner (j :: js) ++ (layout.newline ++ ']' :: rest))) := by
      simp [render]
    rw [htext, opensComment_cons (c := '[') (by decide) (by decide), opensComment_newline,
      opensComment_renderItems layout.inner (j :: js) hclose, opensComment_newline]
    rfl
  | .object [], _, _ => rfl
  | .object (m :: ms), rest, _ => by
    have hclose : Breaks (layout.newline ++ '\x7d' :: rest) :=
      breaks_newline layout (breaks_cons (by decide) rest)
    have htext : render layout (.object (m :: ms)) ++ rest = '\x7b' :: (layout.inner.newline ++
        (renderMembers layout.inner (m :: ms) ++ (layout.newline ++ '\x7d' :: rest))) := by
      simp [render]
    rw [htext, opensComment_cons (c := '\x7b') (by decide) (by decide), opensComment_newline,
      opensComment_renderMembers layout.inner (m :: ms) hclose, opensComment_newline]
    rfl

/-- Items open no comment. -/
theorem opensComment_renderItems (layout : Layout) : ∀ (js : List Json) {rest : List Char},
    Breaks rest → opensComment false (renderItems layout js ++ rest) = opensComment false rest
  | [], _, _ => rfl
  | [j], _, hrest => opensComment_render layout j hrest
  | j :: k :: js, rest, hrest => by
    -- The text of the first item, and the comma and the items behind it.
    have htext : renderItems layout (j :: k :: js) ++ rest =
        render layout j ++ ',' :: (layout.newline ++ (renderItems layout (k :: js) ++ rest)) := by
      simp [renderItems]
    rw [htext, opensComment_render layout j (breaks_comma _), opensComment_comma,
      opensComment_renderItems layout (k :: js) hrest]

/-- Members open no comment, names included. -/
theorem opensComment_renderMembers (layout : Layout) :
    ∀ (ms : List (String × Json)) {rest : List Char}, Breaks rest →
      opensComment false (renderMembers layout ms ++ rest) = opensComment false rest
  | [], _, _ => rfl
  | [(name, j)], rest, hrest => by
    -- The one member is a name, a colon and a value.
    have htext : renderMembers layout [(name, j)] ++ rest =
        stringText name ++ (layout.colon ++ (render layout j ++ rest)) := by
      simp [renderMembers]
    rw [htext, opensComment_stringText, opensComment_colon, opensComment_render layout j hrest]
  | (name, j) :: m :: ms, rest, hrest => by
    have htext : renderMembers layout ((name, j) :: m :: ms) ++ rest =
        stringText name ++ (layout.colon ++ (render layout j ++ ',' :: (layout.newline ++
          (renderMembers layout (m :: ms) ++ rest)))) := by
      simp [renderMembers]
    rw [htext, opensComment_stringText, opensComment_colon,
      opensComment_render layout j (breaks_comma _), opensComment_comma,
      opensComment_renderMembers layout (m :: ms) hrest]

end

/-- The tokens of written JSON have only white space between them. -/
theorem spaced_render (layout : Layout) (j : Json) : Spaced (render layout j) j.tree.tokens [] := by
  have hscan := scans_render layout j breaks_nil
  have hfree := opensComment_render layout j breaks_nil
  rw [List.append_nil] at hscan hfree
  exact (hscan.spaced hfree).1

end Json

namespace Grammar

open Json.Reader

/-- **Objects of any depth.** The text of an object is read as the object, if it nests no deeper than
the reader goes, and otherwise it is not read. -/
theorem objectValue_of_spaced {o : Json.Object} {n : Nat} {cs rest : List Char}
    (h : Spaced cs (.mark '\x7b' :: Tree.memberTokens (Json.treeMembers o.members)) rest)
    {found : Json.Object × List Char} :
    objectValue (n + 1) cs = .ok found ↔ found = (o, rest) ∧ o.toJson.depth ≤ n + 1 := by
  have hread : ∀ limit, Json.depthMembers o.members ≤ limit →
      objectValue (limit + 1) cs = .ok (o, rest) := fun limit hdepth =>
    objectValue_reads.mpr ⟨_, h, (Json.depth_treeMembers _).trans_le hdepth, o.members,
      Json.membersMean_treeMembers _ o.ordered.2, (Json.insertMembers_nil o.ordered.1).symm⟩
  refine ⟨fun hfound => ?_, ?_⟩
  · obtain ⟨o', rest'⟩ := found
    obtain ⟨ms, hms, hdepth, named, hmean, hmembers⟩ := objectValue_reads.mp hfound
    -- With a limit that suffices for both, the same text is read twice.
    have hagain := hread (max n (Json.depthMembers o.members)) (Nat.le_max_right _ _)
    have hlarge : objectValue (max n (Json.depthMembers o.members) + 1) cs = .ok (o', rest') :=
      objectValue_reads.mpr ⟨ms, hms, hdepth.trans (Nat.le_max_left _ _), named, hmean, hmembers⟩
    obtain ⟨rfl, rfl⟩ := Prod.mk.inj (Except.ok.inj (hagain.symm.trans hlarge))
    refine ⟨rfl, ?_⟩
    rw [Json.Object.toJson, Json.depth, hmembers]
    refine Nat.succ_le_succ ?_
    calc Json.depthMembers (Json.insertMembers named [])
      _ ≤ Json.depthMembers named := Json.depthMembers_insertMembers_le named
      _ ≤ Tree.membersDepth ms := Tree.MembersMean.depth_le ms hmean
      _ ≤ n := hdepth
  · rintro ⟨rfl, hdepth⟩
    exact hread n (Nat.le_of_succ_le_succ hdepth)

end Grammar

namespace Entity

open Grammar Json.Reader

/-! ### Members of an entity -/

section Members

variable {nesting : Nat} {fields fields' : Fields} {cs mid mid' rest : List Char}

/-- A field that has not been read is read as what it is for. The path is a text, as the classifier is. -/
theorem readField_path {s : String} (hfields : fields.path = none)
    (hcolon : colon mid = .ok ((), mid')) (hs : stringValue mid' = .ok (s, rest)) :
    readField nesting fields "path" mid = .ok ({ fields with path := some s }, rest) := by
  unfold readField
  rw [hfields]
  exact bind_eq_ok.mpr ⟨_, hcolon, bind_eq_ok.mpr ⟨_, hs, rfl⟩⟩

theorem readField_classifierPath {s : String} (hfields : fields.classifierPath = none)
    (hcolon : colon mid = .ok ((), mid')) (hs : stringValue mid' = .ok (s, rest)) :
    readField nesting fields "classifierPath" mid =
      .ok ({ fields with classifierPath := some s }, rest) := by
  unfold readField
  rw [if_neg (by decide), if_pos rfl, hfields]
  exact bind_eq_ok.mpr ⟨_, hcolon, bind_eq_ok.mpr ⟨_, hs, rfl⟩⟩

theorem readField_content (hfields : fields.content = none) (hcolon : colon mid = .ok ((), mid')) :
    readField nesting fields "content" mid = .ok (fields', rest) ↔
      ∃ o, objectValue nesting mid' = .ok (o, rest) ∧ fields' = { fields with content := some o } := by
  unfold readField
  rw [if_neg (by decide), if_neg (by decide), if_pos rfl, hfields]
  refine ⟨fun h => ?_, ?_⟩
  · obtain ⟨_, hcolon', h⟩ := bind_eq_ok.mp h
    cases hcolon.symm.trans hcolon'
    obtain ⟨⟨o, _⟩, ho, h⟩ := bind_eq_ok.mp h
    cases h
    exact ⟨o, ho, rfl⟩
  · rintro ⟨o, ho, rfl⟩
    exact bind_eq_ok.mpr ⟨_, hcolon, bind_eq_ok.mpr ⟨_, ho, rfl⟩⟩

variable (nesting) in
/-- A member with a string, and another member after it: the reader goes on with the other. -/
theorem ofMembersFrom_string (fields : Fields) {name s : String} {rawName raw rawNext : List Char} {ts : List Token}
    (hcs : skipSpace cs = cs) (hname : StringMeans rawName name) (hs : StringMeans raw s)
    (hscan : Spaced cs
      (.string rawName :: .mark ':' :: .string raw :: .mark ',' :: .string rawNext :: ts) rest)
    (hfield : ∀ mid mid' next, colon mid = .ok ((), mid') → stringValue mid' = .ok (s, next) →
      readField nesting fields name mid = .ok (fields', next)) :
    ∃ next, skipSpace next = next ∧ Spaced next (.string rawNext :: ts) rest ∧
      ∀ fuel, ofMembersFrom nesting (fuel + 1) fields cs = ofMembersFrom nesting fuel fields' next := by
  obtain ⟨cs₁, hat, hscan⟩ := hscan
  obtain ⟨cs₂, hcolon, hscan⟩ := (spaced_mark (by decide)).mp hscan
  obtain ⟨cs₃, hvalue, hscan⟩ := hscan
  obtain ⟨cs₄, hcomma, hscan⟩ := (spaced_mark (by decide)).mp hscan
  obtain ⟨c, next, hnext⟩ := hscan.exists_skipSpace (List.cons_ne_nil _ _)
  have hmember : memberName cs = .ok (name, cs₁) := memberName_eq_ok.mpr ⟨rawName, hcs ▸ hat, hname⟩
  have hread := hfield cs₁ cs₂ cs₃ (colon_eq_ok.mpr hcolon) (stringValue_eq_ok.mpr ⟨raw, hvalue, hs⟩)
  refine ⟨c :: next, skipSpace_eq_self hnext, ?_, fun fuel => ?_⟩
  · rwa [← hnext, spaced_skipSpace (List.cons_ne_nil _ _)]
  · -- The next member begins with its quote, so it does not close the object.
    have hc : c ≠ '\x7d' := by
      rintro rfl
      obtain ⟨_, hquote, -⟩ := hscan
      rw [hnext] at hquote
      cases hquote.classOf?_eq
    rw [ofMembersFrom, hmember]
    simp only [bind, Except.bind, hread, hcomma, hnext]
    split
    · next heq => cases heq
    · next heq => exact absurd (List.cons.inj heq).1 hc
    · rfl

/-- The member with the content, at the end of the object. -/
theorem ofMembersFrom_content {n fuel : Nat} {path classifierPath : String} {o : Json.Object}
    {rawName : List Char} (hcs : skipSpace cs = cs) (hname : StringMeans rawName "content")
    (hscan : Spaced cs (.string rawName :: .mark ':' :: .mark '\x7b' ::
      (Tree.memberTokens (Json.treeMembers o.members) ++ [.mark '\x7d'])) rest)
    {found : Entity × List Char} :
    ofMembersFrom (n + 1) (fuel + 1) ⟨some path, some classifierPath, none⟩ cs = .ok found ↔
      found = (⟨path, classifierPath, o⟩, rest) ∧ o.toJson.depth ≤ n + 1 := by
  obtain ⟨cs₁, hat, hscan⟩ := hscan
  obtain ⟨cs₂, hcolon, hscan⟩ := (spaced_mark (by decide)).mp hscan
  rw [← List.cons_append] at hscan
  obtain ⟨cs₃, hcontent, hclose⟩ := spaced_append.mp hscan
  obtain ⟨cs₄, hend, rfl⟩ := (spaced_mark (by decide)).mp hclose
  -- The name, the colon, the object and the brace behind it, in the order of the text.
  have hmember : memberName cs = .ok ("content", cs₁) :=
    memberName_eq_ok.mpr ⟨rawName, hcs ▸ hat, hname⟩
  rw [ofMembersFrom, hmember, bind_eq_ok]
  refine ⟨?_, ?_⟩
  · rintro ⟨_, ⟨⟩, h⟩
    obtain ⟨⟨fields, _⟩, hfield, h⟩ := bind_eq_ok.mp h
    obtain ⟨o', ho, rfl⟩ := (readField_content rfl (colon_eq_ok.mpr hcolon)).mp hfield
    obtain ⟨heq, hdepth⟩ := (objectValue_of_spaced hcontent).mp ho
    cases heq
    dsimp only at h
    rw [hend] at h
    cases h
    exact ⟨rfl, hdepth⟩
  · rintro ⟨rfl, hdepth⟩
    have ho := (objectValue_of_spaced hcontent).mpr ⟨rfl, hdepth⟩
    have hfield : readField (n + 1) ⟨some path, some classifierPath, none⟩ "content" cs₁ =
        .ok (⟨some path, some classifierPath, some o⟩, cs₃) :=
      (readField_content rfl (colon_eq_ok.mpr hcolon)).mpr ⟨o, ho, rfl⟩
    refine ⟨_, rfl, bind_eq_ok.mpr ⟨_, hfield, ?_⟩⟩
    dsimp only
    rw [hend]
    rfl

end Members

/-! ### Entities -/

/-- An object is read member by member, and there is fuel enough for as many members as one likes. -/
theorem ofMembers_of_spaced (nesting : Nat) {cs rest : List Char} {raw : List Char} {ts : List Token}
    (h : Spaced cs (.string raw :: ts) rest) :
    ∃ next fuel, skipSpace next = next ∧ Spaced next (.string raw :: ts) rest ∧
      ts.length ≤ fuel ∧
      ofMembers nesting cs = ofMembersFrom nesting (fuel + 1) ⟨none, none, none⟩ next := by
  obtain ⟨c, next, hnext⟩ := h.exists_skipSpace (List.cons_ne_nil _ _)
  rw [← spaced_skipSpace (List.cons_ne_nil _ _), hnext] at h
  have hlength := h.scans.length_le
  have hself := skipSpace_eq_self hnext
  refine ⟨c :: next, next.length, hself, h, ?_, ?_⟩
  · simp only [List.length_cons] at hlength
    omega
  · -- The first member begins with a quote, so the object is not empty.
    have hc : c ≠ '\x7d' := by
      rintro rfl
      obtain ⟨_, hquote, -⟩ := h
      rw [hself] at hquote
      cases hquote.classOf?_eq
    unfold ofMembers
    rw [hnext]
    split
    · next heq => cases heq
    · next heq => exact absurd (List.cons.inj heq).1 hc
    · rfl

/-- The text of an entity is read as the entity, if the content nests no deeper than the reader goes
inside the object around it, and otherwise it is not read. -/
theorem reader_of_spaced {entity : Entity} {cs rest : List Char}
    (h : Spaced cs entity.toJson.tree.tokens rest) {found : Entity × List Char} :
    reader cs = .ok found ↔ found = (entity, rest) ∧ entity.content.toJson.depth ≤ maxNesting - 1 := by
  obtain ⟨mid, hopen, h⟩ := (spaced_mark (by decide)).mp h
  -- The members come in the order in which they are written.
  obtain ⟨cs₁, fuel, hcs₁, h, hfuel, hmembers⟩ := ofMembers_of_spaced (maxNesting - 1) h
  obtain ⟨cs₂, hcs₂, h, hpath⟩ := ofMembersFrom_string (maxNesting - 1) ⟨none, none, none⟩ hcs₁
    (stringMeans_stringText "path") (stringMeans_stringText entity.path) h
    fun _ _ _ => readField_path rfl
  obtain ⟨cs₃, hcs₃, h, hclassifierPath⟩ := ofMembersFrom_string (maxNesting - 1)
    ⟨some entity.path, none, none⟩ hcs₂ (stringMeans_stringText "classifierPath")
    (stringMeans_stringText entity.classifierPath) h
    fun _ _ _ => readField_classifierPath rfl
  have htwo : 2 ≤ fuel := by
    simp only [Json.treeMembers, Tree.moreMemberTokens, List.length_cons, List.length_append] at hfuel
    omega
  obtain ⟨fuel, rfl⟩ := Nat.exists_eq_add_of_le' htwo
  unfold reader
  rw [hopen]
  show ofMembers (maxNesting - 1) mid = .ok found ↔ _
  rw [hmembers, hpath, hclassifierPath]
  exact ofMembersFrom_content hcs₃ (stringMeans_stringText "content") h

/-- **Reading back.** The JSON of an entity, in either layout, is read as the entity, if the content
nests at most 126 levels, itself included. A deeper content is not read. -/
theorem read_render_iff (layout : Json.Layout) (entity : Entity) {found : Entity} :
    read (Json.render layout entity.toJson) = .ok found ↔
      found = entity ∧ entity.content.toJson.depth ≤ 126 := by
  rw [read, wholly_eq_ok]
  simp only [reader_of_spaced (Json.spaced_render layout entity.toJson), finish_eq_ok]
  refine ⟨?_, ?_⟩
  · rintro ⟨rest, ⟨heq, hdepth⟩, -⟩
    cases heq
    exact ⟨rfl, hdepth⟩
  · rintro ⟨rfl, hdepth⟩
    exact ⟨[], ⟨rfl, hdepth⟩, rfl⟩

/-- **Decoding what is encoded.** Whatever strings an entity has for its path and its classifier, and
whatever its content holds, the JSON of the entity on one line and the JSON with a line for each member are
both read as that entity and as no other, exactly if the content nests at most 126 levels, itself included.
-/
theorem json_decodes_iff (entity found : Entity) :
    (read entity.toJson.compact.toList = .ok found ↔
      found = entity ∧ entity.content.toJson.depth ≤ 126) ∧
    (read entity.toJson.pretty.toList = .ok found ↔
      found = entity ∧ entity.content.toJson.depth ≤ 126) := by
  have hcompact : entity.toJson.compact.toList = Json.render .compact entity.toJson :=
    String.toList_ofList
  have hpretty : entity.toJson.pretty.toList = Json.render (.pretty 0) entity.toJson :=
    String.toList_ofList
  rw [hcompact, hpretty]
  exact ⟨read_render_iff .compact entity, read_render_iff (.pretty 0) entity⟩

end Entity

end ModelText
