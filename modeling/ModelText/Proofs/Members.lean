import Mathlib.Data.List.Perm.Basic
import ModelText.Json.Value

/-!
# Members of objects

What looking up a name gives after members have been set, removed and put together
(`findMember_insertMember`, `findMember_eraseMember`, `Object.find?_union`). An object is known by what
looking up each name gives, since its members stand in the order of their names
(`Object.ext_find?`).
-/

namespace ModelText.Json

/-! ### Looking up a name -/

@[simp] theorem findMember_nil (name : String) : findMember name [] = none := rfl

/-- A name is looked up from the front. -/
theorem findMember_cons (name : String) (m : String × Json) (ms : List (String × Json)) :
    findMember name (m :: ms) = if m.1 = name then some m.2 else findMember name ms := by
  unfold findMember
  rw [List.find?_cons]
  by_cases h : m.1 = name
  · simp [h]
  · have hfalse : (m.1 == name) = false := beq_eq_false_iff_ne.mpr h
    rw [if_neg h, hfalse]

/-- After an insertion the name that was inserted has its new value, and any other the one it had. -/
theorem findMember_insertMember (name key : String) (value : Json) (ms : List (String × Json)) :
    findMember name (insertMember key value ms) =
      if key = name then some value else findMember name ms := by
  -- By induction along the members, since the new one comes to stand where its name belongs.
  induction ms with
  | nil => rw [insertMember, findMember_cons]
  | cons m ms ih =>
    obtain ⟨n, v⟩ := m
    rw [insertMember]
    split
    · rw [findMember_cons]
    · split
      · next h =>
        subst h
        rw [findMember_cons, findMember_cons]
        split
        · rfl
        · rfl
      · next hne =>
        rw [findMember_cons, ih, findMember_cons]
        by_cases hkey : key = name
        · have hn : n ≠ name := fun h => hne (hkey.trans h.symm)
          rw [if_neg hn, if_pos hkey, if_pos hkey]
        · rw [if_neg hkey, if_neg hkey]

/-- After an erasure the name that was erased has none. -/
theorem findMember_eraseMember (name key : String) (ms : List (String × Json)) :
    findMember name (eraseMember key ms) = if key = name then none else findMember name ms := by
  -- By induction on the members. The first is dropped or kept, and in either case its name may be the one
  -- that is looked for or not.
  induction ms with
  | nil => simp [eraseMember]
  | cons m ms ih =>
    unfold eraseMember at ih ⊢
    rw [List.filter_cons, findMember_cons]
    by_cases hm : m.1 = key
    · have hdrop : (m.1 != key) = false := by simp [hm]
      rw [hdrop, if_neg (by decide), ih]
      by_cases hkey : key = name
      · rw [if_pos hkey, if_pos hkey]
      · rw [if_neg hkey, if_neg hkey, if_neg (hm ▸ hkey)]
    · have hkeep : (m.1 != key) = true := by simp [hm]
      rw [hkeep, if_pos rfl, findMember_cons, ih]
      by_cases hkey : key = name
      · rw [if_pos hkey, if_pos hkey, if_neg (hkey ▸ hm)]
      · rw [if_neg hkey, if_neg hkey]

/-- A name that comes before all others is not among them. -/
theorem findMember_eq_none_of_lt {name : String} {ms : List (String × Json)}
    (h : ∀ m ∈ ms, name < m.1) : findMember name ms = none := by
  -- By induction on the members.
  induction ms with
  | nil => rfl
  | cons m ms ih =>
    obtain ⟨hm, hms⟩ := List.forall_mem_cons.mp h
    have hne : m.1 ≠ name := fun heq => String.lt_irrefl name (heq ▸ hm)
    rw [findMember_cons, if_neg hne, ih hms]

/-- Members in ascending order that are set one after another stand in for those of the same name. -/
theorem findMember_insertMembers (name : String) {new : List (String × Json)}
    (h : new.Pairwise (·.1 < ·.1)) (ms : List (String × Json)) :
    findMember name (insertMembers new ms) = (findMember name new).or (findMember name ms) := by
  induction new generalizing ms with
  | nil => rfl
  | cons m new ih =>
    obtain ⟨hbelow, hnew⟩ := List.pairwise_cons.mp h
    have hstep : insertMembers (m :: new) ms = insertMembers new (insertMember m.1 m.2 ms) := rfl
    rw [hstep, ih hnew, findMember_insertMember, findMember_cons]
    by_cases hname : m.1 = name
    · -- The names of later members are greater, so none of those sets this one again.
      have hnone : findMember name new = none :=
        findMember_eq_none_of_lt fun n hn => hname ▸ hbelow n hn
      rw [if_pos hname, if_pos hname, hnone]
      rfl
    · rw [if_neg hname, if_neg hname]

/-! ### Members in order -/

/-- Where the names are in order there is one member for each at most, so looking up finds what is there.
-/
theorem findMember_eq_some_iff {name : String} {value : Json} {ms : List (String × Json)}
    (h : ms.Pairwise (·.1 < ·.1)) : findMember name ms = some value ↔ (name, value) ∈ ms := by
  induction ms with
  | nil => simp
  | cons m ms ih =>
    obtain ⟨hbelow, hms⟩ := List.pairwise_cons.mp h
    rw [findMember_cons, List.mem_cons]
    by_cases hname : m.1 = name
    · -- The names behind the first are greater than it, so it is not among them.
      have hrest : (name, value) ∉ ms := fun hmem => by
        have hlt := hbelow (name, value) hmem
        rw [hname] at hlt
        exact String.lt_irrefl name hlt
      rw [if_pos hname, Option.some.injEq]
      constructor
      · rintro rfl
        exact .inl (Prod.ext hname.symm rfl)
      · rintro (heq | hmem)
        · exact congrArg Prod.snd heq.symm
        · exact absurd hmem hrest
    · have hne : (name, value) ≠ m := fun heq => hname (congrArg Prod.fst heq.symm)
      rw [if_neg hname, ih hms]
      exact ⟨.inr, fun hmem => hmem.resolve_left hne⟩

/-- Two lists of members in ascending order with the same look-ups are the same list. -/
theorem eq_of_findMember {ms ns : List (String × Json)} (hms : ms.Pairwise (·.1 < ·.1))
    (hns : ns.Pairwise (·.1 < ·.1)) (h : ∀ name, findMember name ms = findMember name ns) :
    ms = ns := by
  have hnodup : ∀ {l : List (String × Json)}, l.Pairwise (·.1 < ·.1) → l.Nodup := by
    intro l hl
    refine List.Pairwise.imp ?_ hl
    rintro m _ hlt rfl
    exact String.lt_irrefl m.1 hlt
  -- Members can be looked up just if they are there, and sorted lists of the same members are
  -- equal.
  have hperm : ms.Perm ns := by
    refine (List.perm_ext_iff_of_nodup (hnodup hms) (hnodup hns)).mpr ?_
    rintro ⟨name, value⟩
    rw [← findMember_eq_some_iff hms, ← findMember_eq_some_iff hns, h]
  exact hperm.eq_of_pairwise
    (fun _ _ _ _ hlt hlt' => absurd hlt' (String.lt_asymm hlt)) hms hns

namespace Object

/-! ### Objects -/

/-- **Extensionality.** Objects with the same look-ups are the same. -/
theorem ext_find? {o p : Object} (h : ∀ name, o.find? name = p.find? name) : o = p :=
  Object.ext (eq_of_findMember o.ordered.1 p.ordered.1 h)

theorem find?_empty (name : String) : empty.find? name = none := rfl

/-- The same laws hold for objects, whose members are always in order. A text that is inserted is found
under its name. -/
theorem find?_insertString (o : Object) (key text name : String) :
    (o.insertString key text).find? name =
      if key = name then some (.string text) else o.find? name :=
  findMember_insertMember name key (.string text) o.members

theorem find?_erase (o : Object) (key name : String) :
    (o.erase key).find? name = if key = name then none else o.find? name :=
  findMember_eraseMember name key o.members

/-- In a union the second object is asked first. -/
theorem find?_union (o p : Object) (name : String) :
    (o.union p).find? name = (p.find? name).or (o.find? name) :=
  findMember_insertMembers name p.ordered.1 o.members

/-- A name is contained if looking it up finds a value. -/
theorem contains_eq (o : Object) (name : String) : o.contains name = (o.find? name).isSome := by
  unfold contains find?
  induction o.members with
  | nil => rfl
  | cons m ms ih =>
    rw [List.any_cons, ih, findMember_cons]
    by_cases h : m.1 = name
    · simp [h]
    · simp [h]

end Object

end ModelText.Json
