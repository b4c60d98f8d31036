import Mathlib.Data.List.Chain
import Mathlib.Data.List.Perm.Basic
import ModelText.Json.Depth

/-!
# Searching for a container that lies too deep

Whether an object goes deeper than a limit is asked of a list of pending values, each with the level that
it stands on. One of them is taken, and what is directly inside it becomes pending on the next level. The
first container that is taken beyond the limit ends the search.

`Search.Step` is this search without an order. It takes any of the pending values, and puts what is inside
it anywhere among the others. Every step makes the values that are left fewer (`Step.size_lt`), and none
changes whether there is a container beyond the limit (`Step.finds_iff`), so a search comes to an end in
any order, and always with the same answer. The order of `exceedsFrom` is one of them
(`reaches_exceedsFrom`), and so its answer is the one that the depth of the object gives
(`Object.exceeds_eq_true_iff`).
-/

namespace ModelText

namespace Json

/-! ### Depth -/

/-- A list is as deep as the deepest of its values, so it is within a bound if all of them are. -/
theorem depthItems_le_iff {js : List Json} {n : Nat} : depthItems js ≤ n ↔ ∀ j ∈ js, j.depth ≤ n := by
  -- By induction on the list.
  induction js with
  | nil => simp [depthItems]
  | cons j js ih => rw [depthItems, Nat.max_le, ih, List.forall_mem_cons]

/-- It is deeper than a bound if one of them is. -/
theorem lt_depthItems_iff {js : List Json} {n : Nat} : n < depthItems js ↔ ∃ j ∈ js, n < j.depth := by
  rw [← Nat.not_le, depthItems_le_iff]
  push Not
  exact Iff.rfl

/-- For the depth, members are the list of their values. -/
theorem depthMembers_eq (ms : List (String × Json)) :
    depthMembers ms = depthItems (ms.map (·.2)) := by
  induction ms with
  | nil => rfl
  | cons m ms ih => rw [depthMembers, ih]; rfl

/-- What has no children is a scalar. -/
theorem depth_of_children?_eq_none {j : Json} (h : j.children? = none) : j.depth = 0 := by
  cases j <;> simp [children?, depth] at h ⊢

/-- A container is one level deeper than its children. -/
theorem depth_of_children?_eq_some {j : Json} {js : List Json} (h : j.children? = some js) :
    j.depth = depthItems js + 1 := by
  cases j <;> simp [children?] at h
  · rw [depth, h]
  · rw [depth, depthMembers_eq, h]

/-- The size of a list does not depend on its order. -/
theorem sizeItems_perm {js ks : List Json} (h : js.Perm ks) :
    sizeItems js = sizeItems ks := by
  -- By induction on the permutation.
  induction h with
  | nil => rfl
  | cons j _ ih => rw [sizeItems, sizeItems, ih]
  | swap j k js =>
    simp only [sizeItems]
    omega
  | trans _ _ ih ih' => exact ih.trans ih'

/-! ### Searching in any order -/

/-- How far a search has come: to values that are still pending, each with its level, or to an answer. -/
inductive Search where
  | pending (values : List (Json × Nat))
  | answered (found : Bool)

namespace Search

variable {limit : Nat} {s t : Search}

/-- One step of a search, which takes any of the pending values. -/
inductive Step (limit : Nat) : Search → Search → Prop
  | finish : Step limit (.pending []) (.answered false)
  | scalar {values rest : List (Json × Nat)} {j : Json} {level : Nat} :
      values.Perm ((j, level) :: rest) → j.children? = none →
      Step limit (.pending values) (.pending rest)
  | found {values rest : List (Json × Nat)} {j : Json} {level : Nat} {js : List Json} :
      values.Perm ((j, level) :: rest) → j.children? = some js → limit < level →
      Step limit (.pending values) (.answered true)
  | descend {values rest next : List (Json × Nat)} {j : Json} {level : Nat} {js : List Json} :
      values.Perm ((j, level) :: rest) → j.children? = some js → level ≤ limit →
      next.Perm (js.map (·, level + 1) ++ rest) → Step limit (.pending values) (.pending next)

/-- A search that has values pending can go on. -/
theorem exists_step (limit : Nat) (values : List (Json × Nat)) :
    ∃ t, Step limit (.pending values) t := by
  cases values with
  | nil => exact ⟨_, .finish⟩
  | cons p rest =>
    obtain ⟨j, level⟩ := p
    cases hchildren : j.children? with
    | none => exact ⟨_, .scalar (.refl _) hchildren⟩
    | some js =>
      by_cases hlevel : limit < level
      · exact ⟨_, .found (.refl _) hchildren hlevel⟩
      · exact ⟨_, .descend (.refl _) hchildren (Nat.not_lt.mp hlevel) (.refl _)⟩

/-! ### It comes to an end -/

/-- The number of values that are left, those inside others included. -/
def size : Search → Nat
  | pending values => sizeItems (values.map (·.1)) + 1
  | answered _ => 0

/-- Whichever value is taken next, it is a part of the size. -/
theorem size_of_perm {values rest : List (Json × Nat)} {j : Json} {level : Nat}
    (h : values.Perm ((j, level) :: rest)) :
    (pending values).size = j.size + (pending rest).size := by
  have hvalues := sizeItems_perm (h.map (·.1))
  simp only [size, hvalues, List.map_cons, sizeItems]
  omega

/-- Every step leaves fewer values. -/
theorem Step.size_lt (h : Step limit s t) : t.size < s.size := by
  cases h with
  | finish => exact Nat.zero_lt_one
  | @scalar values rest j level htaken _ =>
    rw [size_of_perm htaken]
    exact Nat.lt_add_of_pos_left (size_pos j)
  | found => exact Nat.zero_lt_succ _
  | @descend values rest next j level js htaken hchildren _ hnext =>
    -- The value itself is gone, and what was inside it is counted where it stands now.
    have hinside : sizeItems ((js.map (·, level + 1)).map (·.1)) = sizeItems js := by
      rw [List.map_map]
      exact congrArg sizeItems (List.map_id' js)
    have hleft := sizeItems_perm (hnext.map (·.1))
    rw [List.map_append, sizeItems_append, hinside] at hleft
    rw [size_of_perm htaken, size_of_children? hchildren]
    simp only [size, hleft]
    omega

/-- A search takes no more steps than there are values. -/
theorem length_le_size {run : List Search} (h : (s :: run).IsChain (Step limit)) :
    run.length ≤ s.size := by
  induction run generalizing s with
  | nil => exact Nat.zero_le _
  | cons t run ih =>
    obtain ⟨hstep, hrest⟩ := List.isChain_cons_cons.mp h
    exact Nat.lt_of_le_of_lt (ih hrest) hstep.size_lt

/-! ### It finds what there is -/

/-- There is a container beyond the limit: a pending value nests so deep, or one has been found. -/
def Finds (limit : Nat) : Search → Prop
  | pending values => ∃ p ∈ values, p.1.depth ≠ 0 ∧ limit + 1 < p.2 + p.1.depth
  | answered found => found = true

/-- What is there to be found does not depend on the order of the values, either. -/
theorem finds_of_perm {values rest : List (Json × Nat)} (h : values.Perm rest) :
    (pending values).Finds limit ↔ (pending rest).Finds limit :=
  exists_congr fun _ => and_congr_left fun _ => h.mem_iff

/-- A value that is taken is deep enough, or what is deep enough is among the others. -/
theorem finds_cons {j : Json} {level : Nat} {rest : List (Json × Nat)} :
    (pending ((j, level) :: rest)).Finds limit ↔
      j.depth ≠ 0 ∧ limit + 1 < level + j.depth ∨ (pending rest).Finds limit := by
  unfold Finds
  simp only [List.mem_cons, or_and_right, exists_or, exists_eq_left]

/-- The same for two lists. -/
theorem finds_append {front rest : List (Json × Nat)} :
    (pending (front ++ rest)).Finds limit ↔ (pending front).Finds limit ∨ (pending rest).Finds limit := by
  unfold Finds
  simp only [List.mem_append, or_and_right, exists_or]

/-- What is inside a container within the limit goes beyond it together with the container. -/
theorem finds_children {js : List Json} {level : Nat} (h : level ≤ limit) :
    (pending (js.map (·, level + 1))).Finds limit ↔ limit < level + depthItems js := by
  have hdeep : limit < level + depthItems js ↔ ∃ j ∈ js, limit - level < j.depth := by
    rw [← lt_depthItems_iff]
    omega
  rw [hdeep]
  constructor
  · rintro ⟨p, hp, -, hlevel⟩
    obtain ⟨j, hj, rfl⟩ := List.mem_map.mp hp
    refine ⟨j, hj, ?_⟩
    dsimp only at hlevel
    omega
  · rintro ⟨j, hj, hdepth⟩
    refine ⟨(j, level + 1), List.mem_map_of_mem hj, ?_, ?_⟩
    · exact Nat.ne_of_gt (Nat.zero_lt_of_lt hdepth)
    · dsimp only
      omega

/-- No step changes what there is to find. -/
theorem Step.finds_iff (h : Step limit s t) : s.Finds limit ↔ t.Finds limit := by
  cases h with
  | finish => simp [Finds]
  | scalar htaken hscalar =>
    rw [finds_of_perm htaken, finds_cons, depth_of_children?_eq_none hscalar]
    simp
  | @found values rest j level js htaken hchildren hlevel =>
    have hdepth := depth_of_children?_eq_some hchildren
    rw [finds_of_perm htaken, finds_cons]
    refine iff_of_true (.inl ⟨?_, ?_⟩) rfl
    · -- The value is a container on a level beyond the limit, so it is itself what is found.
      omega
    · omega
  | @descend values rest next j level js htaken hchildren hlevel hnext =>
    have hdepth := depth_of_children?_eq_some hchildren
    rw [finds_of_perm htaken, finds_cons, finds_of_perm hnext, finds_append, finds_children hlevel]
    refine or_congr_left ?_
    omega

/-- So no number of steps does. -/
theorem finds_iff_of_reaches (h : Relation.ReflTransGen (Step limit) s t) :
    s.Finds limit ↔ t.Finds limit := by
  -- By induction on the steps.
  induction h with
  | refl => exact Iff.rfl
  | tail _ hstep ih => exact ih.trans hstep.finds_iff

end Search

/-! ### The order of the loop -/

open Search (Step)

/-- The loop is one of the orders: it takes the value in front, and puts what is inside it there. -/
theorem reaches_exceedsFrom (limit : Nat) (pending : List (Json × Nat)) :
    Relation.ReflTransGen (Step limit) (.pending pending) (.answered (exceedsFrom limit pending)) := by
  fun_induction exceedsFrom limit pending with
  | case1 => exact .single .finish
  | case2 j level pending h ih => exact .head (.scalar (.refl _) h) ih
  | case3 j level pending js h hlevel => exact .single (.found (.refl _) h hlevel)
  | case4 j level pending js h hlevel ih =>
    have hnext : (js.reverse.map (·, level + 1) ++ pending).Perm (js.map (·, level + 1) ++ pending) :=
      (js.reverse_perm.map _).append_right pending
    exact .head (.descend (.refl _) h (Nat.not_lt.mp hlevel) hnext) ih

namespace Object

variable {o : Object} {limit : Nat}

/-- Where the search of an object begins: its members are pending, one level below it. -/
def search (o : Object) : Search :=
  .pending (o.members.reverse.map (·.2, 2))

/-- At the beginning the size is that of the object. -/
theorem size_search (o : Object) : o.search.size = o.toJson.size := by
  rw [search, Search.size, List.map_map, List.map_reverse, sizeItems_reverse, toJson, size,
    ← sizeItems_map_snd]
  rfl

/-- At the beginning there is something to be found if the object is deeper than the limit. -/
theorem finds_search (hlimit : 0 < limit) : o.search.Finds limit ↔ limit < o.toJson.depth := by
  -- The object stands on the first level, and so its members on the second.
  have hdepth : limit < o.toJson.depth ↔ limit < 1 + depthItems (o.members.map (·.2)) := by
    rw [toJson, depth, depthMembers_eq]
    omega
  rw [hdepth, ← Search.finds_children hlimit, search, List.map_map]
  exact Search.finds_of_perm (o.members.reverse_perm.map _)

/-- **Depth of a body.** The check before writing refuses an object exactly if it nests too deep. -/
theorem exceeds_eq_true_iff (hlimit : 0 < limit) : o.exceeds limit = true ↔ limit < o.toJson.depth := by
  rw [← finds_search hlimit]
  exact (Search.finds_iff_of_reaches (reaches_exceedsFrom limit _)).symm

/-- The loop answers no if the object is within the limit. -/
theorem exceeds_eq_false_iff (hlimit : 0 < limit) :
    o.exceeds limit = false ↔ o.toJson.depth ≤ limit := by
  rw [← Bool.not_eq_true, exceeds_eq_true_iff hlimit, Nat.not_lt]

/-- **The search is exact.** The loop answers whether the object nests deeper than the limit. What the loop
does is a search in one of the possible orders. In any order a search takes no more steps than there are
values in the object, and it can go on until it has come to that same answer. -/
theorem exceeds_in_any_order (o : Object) (limit : Nat) (hlimit : 0 < limit) :
    (o.exceeds limit = true ↔ limit < o.toJson.depth) ∧
    Relation.ReflTransGen (Step limit) o.search (.answered (o.exceeds limit)) ∧
    ∀ run : List Search, (o.search :: run).IsChain (Step limit) →
      run.length ≤ o.toJson.size ∧
      ∀ last, (o.search :: run).getLast (List.cons_ne_nil _ _) = last →
        (∃ next, Step limit last next) ∨ last = .answered (decide (limit < o.toJson.depth)) := by
  refine ⟨exceeds_eq_true_iff hlimit, reaches_exceedsFrom limit _, fun run hrun => ⟨?_, ?_⟩⟩
  · rw [← size_search]
    exact Search.length_le_size hrun
  · intro last hlast
    have hreaches := List.relationReflTransGen_of_exists_isChain_cons run hrun hlast
    cases last with
    | pending values => exact .inl (Search.exists_step limit values)
    | answered found =>
      -- What has been found is what there was to find in the beginning.
      have hfound : limit < o.toJson.depth ↔ found = true :=
        (finds_search hlimit).symm.trans (Search.finds_iff_of_reaches hreaches)
      have hanswer : found = decide (limit < o.toJson.depth) := by
        rw [Bool.eq_iff_iff, decide_eq_true_iff]
        exact hfound.symm
      exact .inr (congrArg Search.answered hanswer)

/-- An array in an array, and before it an empty one, which another order than that of the loop takes
first. -/
theorem exceeds_in_any_order_arrays :
    let o : Object := ⟨[("a", .array []), ("b", .array [.array []])],
      List.pairwise_pair.mpr (by decide), by simp [Ordered, OrderedItems, OrderedMembers]⟩
    let run : List Search := [.pending [(.array [.array []], 2)], .pending [(.array [], 3)], .answered true]
    0 < 2 ∧ (o.search :: run).IsChain (Step 2) ∧ o.exceeds 2 = true ∧ 2 < o.toJson.depth ∧
      run.length ≤ o.toJson.size := by
  intro o run
  have hdepth : 2 < o.toJson.depth := by decide
  have hrun : (o.search :: run).IsChain (Step 2) := by
    refine .cons_cons (.descend (.swap _ _ _) rfl (Nat.le_refl 2) (.refl _)) ?_
    refine .cons_cons (.descend (.refl _) rfl (Nat.le_refl 2) (.refl _)) ?_
    exact .cons_cons (.found (.refl _) rfl (Nat.lt_succ_self 2)) (.singleton _)
  obtain ⟨hexact, -, hruns⟩ := exceeds_in_any_order o 2 Nat.two_pos
  exact ⟨Nat.two_pos, hrun, hexact.mpr hdepth, hdepth, (hruns run hrun).1⟩

end Object

end Json

end ModelText
