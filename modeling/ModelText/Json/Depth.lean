import ModelText.Json.Value

/-!
# How deep containers nest

`Json.depth` counts the containers inside each other: none for a scalar, and for a container one
more than the deepest of what it holds. `Json.exceeds` answers the question that is asked of a body,
whether it goes deeper than a limit, without recursion on the value: it keeps a list of values that
are still to be looked at, each with the level it stands on, and stops at the first container beyond
the limit.
-/

namespace ModelText.Json

mutual

/-- The number of containers inside each other, the value itself included. -/
def depth : Json → Nat
  | .array items => depthItems items + 1
  | .object members => depthMembers members + 1
  | _ => 0

/-- The depth of the deepest item. -/
def depthItems : List Json → Nat
  | [] => 0
  | j :: js => max j.depth (depthItems js)

/-- The depth of the deepest value of a member. -/
def depthMembers : List (String × Json) → Nat
  | [] => 0
  | (_, j) :: ms => max j.depth (depthMembers ms)

end

mutual

/-- The number of values in a value, itself included. -/
def size : Json → Nat
  | .array items => sizeItems items + 1
  | .object members => sizeMembers members + 1
  | _ => 1

/-- The number of values in a list of items. -/
def sizeItems : List Json → Nat
  | [] => 0
  | j :: js => j.size + sizeItems js

/-- The number of values in a list of members. -/
def sizeMembers : List (String × Json) → Nat
  | [] => 0
  | (_, j) :: ms => j.size + sizeMembers ms

end

/-- The values directly inside a container, or `none` for a scalar. -/
def children? : Json → Option (List Json)
  | .array items => some items
  | .object members => some (members.map (·.2))
  | _ => none

/-- For the size, members are the list of their values. -/
theorem sizeItems_map_snd (members : List (String × Json)) :
    sizeItems (members.map (·.2)) = sizeMembers members := by
  induction members with
  | nil => rfl
  | cons m ms ih =>
    obtain ⟨name, j⟩ := m
    simp [sizeItems, sizeMembers, ih]

theorem sizeItems_append (js ks : List Json) :
    sizeItems (js ++ ks) = sizeItems js + sizeItems ks := by
  induction js with
  | nil => simp [sizeItems]
  | cons j js ih => simp [sizeItems, ih, Nat.add_assoc]

theorem sizeItems_reverse (js : List Json) : sizeItems js.reverse = sizeItems js := by
  induction js with
  | nil => rfl
  | cons j js ih => simp [sizeItems, sizeItems_append, ih, Nat.add_comm]

theorem size_pos (j : Json) : 0 < j.size := by
  cases j <;> simp [size]

/-- A container is larger than its children by one, which is why the loop comes to an end. -/
theorem size_of_children? {j : Json} {js : List Json} (h : j.children? = some js) :
    j.size = sizeItems js + 1 := by
  cases j <;> simp [children?] at h
  · subst h
    rfl
  · subst h
    simp [size, sizeItems_map_snd]

/-- Whether one of the pending values, or something inside it, is a container on a level beyond
`limit`. The children of a container go in front of what is pending, the last of them first. -/
def exceedsFrom (limit : Nat) : List (Json × Nat) → Bool
  | [] => false
  | (j, level) :: pending =>
    match _h : j.children? with
    | none => exceedsFrom limit pending
    | some js =>
      if limit < level then true
      else exceedsFrom limit (js.reverse.map (·, level + 1) ++ pending)
termination_by pending => sizeItems (pending.map (·.1))
decreasing_by
  · have := size_pos j
    simp only [List.map_cons, sizeItems]
    omega
  · simp only [List.map_cons, List.map_append, List.map_map, sizeItems, sizeItems_append,
      size_of_children? _h, Function.comp_def, List.map_id', sizeItems_reverse]
    omega

namespace Object

/-- Whether a container in the object lies deeper than `limit`, the object itself being level 1. -/
def exceeds (o : Object) (limit : Nat) : Bool :=
  exceedsFrom limit (o.members.reverse.map (·.2, 2))

end Object

end ModelText.Json
