import ModelText.Toml.Value

/-!
# Building TOML tables

A table is written once and in one way, and these are the rules for adding to one that is there:

* a header goes through tables of every kind but those between braces, and through the last of an
  array of tables. At its end it may take up only a table that another header has implied
  (`openTable`), or append to an array of tables (`openArrayTable`);
* a dotted key goes through no table that has a header of its own, and sets a value only in a table
  that came about through dotted keys (`setDotted`).

All of them change one place deep inside a table, along a path of keys (`modifyAt`).
-/

namespace ModelText.Toml

/-- The entries of a table. -/
abbrev Entries : Type := List (String × Value)

/-- A change of a table, which can be refused. -/
abbrev Change : Type := Origin → Entries → Except Cause (Origin × Entries)

/-- The entries with `key` set, in the place it has or at the end. -/
def setEntry (key : String) (value : Value) (entries : Entries) : Entries :=
  if entries.any (·.1 == key) then
    entries.map fun e => if e.1 == key then (key, value) else e
  else entries ++ [(key, value)]

/-- Changes the last of a list of tables. -/
def modifyLast (change : Change) (key : String) (items : List Value) : Except Cause (List Value) :=
  match items.getLast? with
  | some (.table origin entries) => do
    let (origin, entries) ← change origin entries
    return items.dropLast ++ [.table origin entries]
  | _ => .error (.notExtensible key "array of tables")

/-- Changes the table that a path leads to. On the way, missing tables come about with the origin
`fresh`, and `passable` says which tables may be gone through. -/
def modifyAt (fresh : Origin) (passable : Origin → Bool) (change : Change) :
    List String → Change
  | [], origin, entries => change origin entries
  | key :: keys, origin, entries => do
    match lookup key entries with
    | none =>
      let (o, inner) ← modifyAt fresh passable change keys fresh []
      return (origin, entries ++ [(key, .table o inner)])
    | some (.table o inner) =>
      if passable o then
        let (o, inner) ← modifyAt fresh passable change keys o inner
        return (origin, setEntry key (.table o inner) entries)
      else .error (.duplicateKey key)
    | some (.tables items) =>
      let items ← modifyLast (modifyAt fresh passable change keys) key items
      return (origin, setEntry key (.tables items) entries)
    | some value => .error (.notExtensible key value.kind)

/-! ### Keys -/

/-- Whether a dotted key can lead through a table. -/
def Origin.underKey : Origin → Bool
  | implied | dotted => true
  | header | inline | inlineDotted => false

/-- Whether a dotted key between braces can lead through a table. -/
def Origin.underInlineKey : Origin → Bool
  | inlineDotted => true
  | _ => false

/-- Sets a key that must not be there yet under a path of dots. The table that the path leads to
must have come about through dots, unless there is no path. -/
def setDotted (fresh : Origin) (passable : Origin → Bool) (path : List String) (key : String)
    (value : Value) : Change :=
  modifyAt fresh passable
    (fun origin entries =>
      if (!path.isEmpty && origin != fresh) || (lookup key entries).isSome then
        .error (.duplicateKey key)
      else .ok (origin, entries ++ [(key, value)]))
    path

/-- Sets a key in a table with a header, or in the root. -/
def setKey : List String → String → Value → Change :=
  setDotted .dotted Origin.underKey

/-- Sets a key in a table between braces. -/
def setInlineKey : List String → String → Value → Change :=
  setDotted .inlineDotted Origin.underInlineKey

/-! ### Headers -/

/-- Whether a header can lead through a table. -/
def Origin.underHeader : Origin → Bool
  | header | implied | dotted => true
  | inline | inlineDotted => false

/-- Changes the table that the path of a header leads to. -/
def underHeader (change : Change) (path : List String) : Change :=
  modifyAt .implied Origin.underHeader change path

/-- Gives a header to the table `key`: to a new one, or to one that other headers have implied. -/
def openTable (key : String) : Change := fun origin entries =>
  match lookup key entries with
  | none => .ok (origin, entries ++ [(key, .table .header [])])
  | some (.table .implied inner) => .ok (origin, setEntry key (.table .header inner) entries)
  | some _ => .error (.duplicateKey key)

/-- Appends an empty table to the array of tables `key`, which comes about if it is not there. -/
def openArrayTable (key : String) : Change := fun origin entries =>
  match lookup key entries with
  | none => .ok (origin, entries ++ [(key, .tables [.table .header []])])
  | some (.tables items) =>
    .ok (origin, setEntry key (.tables (items ++ [.table .header []])) entries)
  | some _ => .error (.duplicateKey key)

end ModelText.Toml
