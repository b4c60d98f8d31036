import ModelText.Json.Binary64

/-!
# JSON values

The payload of an entity is JSON, and it has to come back exactly as it went in. So numbers keep
their kind (`Json.Number`), and an object is the list of its members in the order of their names,
each name once. That order is what `Json.Ordered` says of a value at every depth; `Json.Object` is
an object that satisfies it, and `Object.insert` and `Object.erase` keep it.

Names are compared character by character, which is also the order of their UTF-8 bytes.
-/

namespace ModelText

/-- A number, with the kind that its literal gave it: a literal without point and exponent is an
integer as long as it fits 64 bits, unsigned if it has no sign and signed if it has one. -/
inductive Json.Number where
  | natural (n : Nat) (bound : n < UInt64.size)
  | negative (magnitude : Nat) (bounds : 0 < magnitude ∧ magnitude ≤ UInt64.size / 2)
  | real (x : Binary64)
deriving DecidableEq, Repr

/-- A JSON value. -/
inductive Json where
  | null
  | bool (b : Bool)
  | number (n : Json.Number)
  | string (s : String)
  | array (items : List Json)
  | object (members : List (String × Json))
deriving Repr

namespace Json

/-! ### Equality of value -/

/-- Numbers of one kind and one value. -/
def Number.sameValue : Number → Number → Bool
  | .natural m _, .natural n _ => m == n
  | .negative m _, .negative n _ => m == n
  | .real x, .real y => x.sameValue y
  | _, _ => false

mutual

/-- Whether two values differ at most in the sign of their zeros. -/
def sameValue : Json → Json → Bool
  | .null, .null => true
  | .bool a, .bool b => a == b
  | .number m, .number n => m.sameValue n
  | .string s, .string t => s == t
  | .array items, .array items' => sameItems items items'
  | .object members, .object members' => sameMembers members members'
  | _, _ => false

/-- `sameValue`, item by item. -/
def sameItems : List Json → List Json → Bool
  | [], [] => true
  | j :: js, k :: ks => sameValue j k && sameItems js ks
  | _, _ => false

/-- `sameValue`, member by member, with equal names. -/
def sameMembers : List (String × Json) → List (String × Json) → Bool
  | [], [] => true
  | (name, j) :: ms, (name', k) :: ms' => name == name' && sameValue j k && sameMembers ms ms'
  | _, _ => false

end

/-! ### Objects in order -/

mutual

/-- Every object in the value, at any depth, has its members in strictly ascending order. -/
def Ordered : Json → Prop
  | .array items => OrderedItems items
  | .object members => members.Pairwise (·.1 < ·.1) ∧ OrderedMembers members
  | _ => True

/-- Every item is ordered. -/
def OrderedItems : List Json → Prop
  | [] => True
  | j :: js => j.Ordered ∧ OrderedItems js

/-- The value of every member is ordered. -/
def OrderedMembers : List (String × Json) → Prop
  | [] => True
  | (_, j) :: ms => j.Ordered ∧ OrderedMembers ms

end

/-- Items are ordered if each of them is. -/
theorem orderedItems_iff {items : List Json} : OrderedItems items ↔ ∀ j ∈ items, j.Ordered := by
  induction items with
  | nil => simp [OrderedItems]
  | cons j js ih => simp [OrderedItems, ih]

theorem orderedMembers_iff {members : List (String × Json)} :
    OrderedMembers members ↔ ∀ m ∈ members, m.2.Ordered := by
  induction members with
  | nil => simp [OrderedMembers]
  | cons m ms ih => cases m; simp [OrderedMembers, ih]

/-- `members` with `name` set to `value`, at the place that the order of names gives it. -/
def insertMember (name : String) (value : Json) :
    List (String × Json) → List (String × Json)
  | [] => [(name, value)]
  | (n, v) :: ms =>
    if name < n then (name, value) :: (n, v) :: ms
    else if name = n then (name, value) :: ms
    else (n, v) :: insertMember name value ms

/-- Inserting a member adds no other. -/
theorem mem_insertMember {name : String} {value : Json} {members : List (String × Json)}
    {m : String × Json} (h : m ∈ insertMember name value members) :
    m = (name, value) ∨ m ∈ members := by
  -- By induction along the members.
  induction members with
  | nil => exact .inl (by simpa [insertMember] using h)
  | cons head ms ih =>
    obtain ⟨n, v⟩ := head
    simp only [insertMember] at h
    split at h
    · simpa using h
    · split at h
      · rcases List.mem_cons.1 h with h | h
        · exact .inl h
        · exact .inr (List.mem_cons_of_mem _ h)
      · rcases List.mem_cons.1 h with h | h
        · exact .inr (h ▸ List.mem_cons_self)
        · exact (ih h).imp_right (List.mem_cons_of_mem _)

/-- The names are in order still, and none occurs twice. -/
theorem pairwise_insertMember {name : String} {value : Json} {members : List (String × Json)}
    (h : members.Pairwise (·.1 < ·.1)) :
    (insertMember name value members).Pairwise (·.1 < ·.1) := by
  -- By induction along the members: the new one goes in front of the first greater name, or takes the
  -- place of its own.
  induction members with
  | nil => simp [insertMember]
  | cons head ms ih =>
    obtain ⟨n, v⟩ := head
    obtain ⟨below, rest⟩ := List.pairwise_cons.1 h
    simp only [insertMember]
    split
    · rename_i lt
      refine List.pairwise_cons.2 ⟨fun m hm => ?_, h⟩
      rcases List.mem_cons.1 hm with rfl | hm
      · exact lt
      · exact String.lt_trans lt (below m hm)
    · split
      · rename_i eq
        subst eq
        exact List.pairwise_cons.2 ⟨below, rest⟩
      · rename_i nlt ne
        have lt : n < name := by
          rcases Decidable.em (n < name) with h | h
          · exact h
          · exact absurd (String.le_antisymm (String.not_lt.1 h) (String.not_lt.1 nlt)) ne
        refine List.pairwise_cons.2 ⟨fun m hm => ?_, ih rest⟩
        rcases mem_insertMember hm with rfl | hm
        · exact lt
        · exact below m hm

/-- So an object stays ordered when an ordered value is inserted. -/
theorem ordered_insertMember {name : String} {value : Json} {members : List (String × Json)}
    (hv : value.Ordered) (h : (Json.object members).Ordered) :
    (Json.object (insertMember name value members)).Ordered := by
  refine ⟨pairwise_insertMember h.1, orderedMembers_iff.2 fun m hm => ?_⟩
  rcases mem_insertMember hm with rfl | hm
  · exact hv
  · exact orderedMembers_iff.1 h.2 m hm

/-- Sets each of the members `new` in turn, so that of several with one name the last one stays. -/
def insertMembers (new members : List (String × Json)) : List (String × Json) :=
  new.foldl (fun ms m => insertMember m.1 m.2 ms) members

/-- An object stays ordered when many members are inserted. -/
theorem ordered_insertMembers {new members : List (String × Json)} (hn : OrderedMembers new)
    (h : (Json.object members).Ordered) :
    (Json.object (insertMembers new members)).Ordered := by
  induction new generalizing members with
  | nil => exact h
  | cons m ms ih =>
    obtain ⟨name, value⟩ := m
    exact ih hn.2 (ordered_insertMember hn.1 h)

/-- The value of the member `name`, if there is one. -/
def findMember (name : String) (members : List (String × Json)) : Option Json :=
  (members.find? (·.1 == name)).map (·.2)

/-- `members` without the member `name`. -/
def eraseMember (name : String) (members : List (String × Json)) : List (String × Json) :=
  members.filter (·.1 != name)

/-- An object: members in ascending order, their values ordered too. -/
structure Object where
  members : List (String × Json)
  ordered : (Json.object members).Ordered

namespace Object

theorem ext {o p : Object} (h : o.members = p.members) : o = p := by
  cases o; cases p; cases h; rfl

/-- The object without members. -/
def empty : Object :=
  ⟨[], by simp [Ordered, OrderedMembers]⟩

/-- The object as a value. -/
def toJson (o : Object) : Json :=
  .object o.members

/-- The value of a member. -/
def find? (o : Object) (name : String) : Option Json :=
  findMember name o.members

/-- Whether there is a member of that name. -/
def contains (o : Object) (name : String) : Bool :=
  o.members.any (·.1 == name)

/-- Sets the member `name`, in place of the one that was there. -/
def insert (o : Object) (name : String) (value : Json) (ordered : value.Ordered) : Object where
  members := insertMember name value o.members
  ordered := ordered_insertMember ordered o.ordered

/-- Sets a member to a string. -/
def insertString (o : Object) (name text : String) : Object :=
  o.insert name (.string text) (by simp [Ordered])

/-- Removes a member, if it is there. -/
def erase (o : Object) (name : String) : Object where
  members := eraseMember name o.members
  ordered := by
    obtain ⟨ascending, inner⟩ := o.ordered
    refine ⟨ascending.filter _, orderedMembers_iff.2 fun m hm => ?_⟩
    exact orderedMembers_iff.1 inner m (List.mem_filter.1 hm).1

/-- The members of both, those of `p` in place of those of `o` with the same name. -/
def union (o p : Object) : Object where
  members := insertMembers p.members o.members
  ordered := ordered_insertMembers p.ordered.2 o.ordered

/-- Equality of value. -/
def sameValue (o p : Object) : Bool :=
  o.toJson.sameValue p.toJson

end Object

end Json

end ModelText
