import MacroMarkup.Dict
import MacroMarkup.Toml.Moment

/-!
# TOML documents as trees

A `Value` is what a key stands for.  A table remembers how it came about, as this decides
what may still be added to it: a table in braces is closed, one made by a dotted key is
open to dotted keys, and one that only stood above a header may still get a header.

Floating-point numbers are kept as they are written.

* `addAt?`: changes the table at the end of a path, making those on the way.
* `bindAt?`, `addTable?`, `addTables?`: what a key, a header and a header in double
  brackets add.
* `bindAt?_of_fresh`: a key that is new is put behind the others.
-/

namespace MacroMarkup.Toml

inductive TableForm where
  /-- It was written in braces. -/
  | braces
  /-- It stands on the way of a dotted key. -/
  | dotted
  /-- It stands on the way of a header. -/
  | implied
  /-- It has a header. -/
  | headed
deriving DecidableEq, Repr

inductive Value where
  | string (text : String)
  | integer (n : Int)
  | boolean (b : Bool)
  /-- A floating-point number, as it is written. -/
  | real (text : String)
  | moment (moment : Moment)
  | array (items : List Value)
  | table (form : TableForm) (entries : List (String × Value))
  /-- Tables whose headers stand in double brackets. -/
  | tables (items : List Value)

/-- A change of the entries of a table, if it is allowed. -/
abbrev Change := TableForm → List (String × Value) → Option (List (String × Value))

/-- Changes the table at the end of a path that starts in a table of this form.  Tables that
are missing on the way are made; the way leads through the last of several tables of one
name.  A dotted path must not enter a table that has a header. -/
def addAt? (dotted : Bool) (change : Change) : List String → Change
  | [], form, entries => change form entries
  | key :: path, _, entries =>
    match Dict.lookup key entries with
    | none => do
      let form := if dotted then .dotted else .implied
      let inner ← addAt? dotted change path form []
      return Dict.bind key (.table form inner) entries
    | some (.table form inner) => do
      if form = .braces || (dotted && form = .headed) then none
      let inner ← addAt? dotted change path form inner
      return Dict.bind key (.table form inner) entries
    | some (.tables items) =>
      match items.getLast? with
      | some (.table form inner) => do
        let inner ← addAt? dotted change path form inner
        return Dict.bind key (.tables (items.dropLast ++ [.table form inner])) entries
      | _ => none
    | some _ => none

/-- Adds a key with its value behind a dotted path.  At the end of a path that is not empty
only tables made by dotted keys are open. -/
def bindAt? (path : List String) (key : String) (value : Value) : Change :=
  addAt? true (fun form entries =>
    if !path.isEmpty && form ≠ .dotted then none
    else if (Dict.lookup key entries).isSome then none
    else some (Dict.bind key value entries)) path

def addTable? (path : List String) (key : String) : Change :=
  addAt? false (fun _ entries =>
    match Dict.lookup key entries with
    | none => some (Dict.bind key (.table .headed []) entries)
    | some (.table .implied inner) => some (Dict.bind key (.table .headed inner) entries)
    | some _ => none) path

def addTables? (path : List String) (key : String) : Change :=
  addAt? false (fun _ entries =>
    match Dict.lookup key entries with
    | none => some (Dict.bind key (.tables [.table .headed []]) entries)
    | some (.tables items) =>
      some (Dict.bind key (.tables (items ++ [.table .headed []])) entries)
    | some _ => none) path

theorem bindAt?_of_fresh {key : String} {value : Value} {form : TableForm}
    {entries : List (String × Value)} (h : Dict.lookup key entries = none) :
    bindAt? [] key value form entries = some (entries ++ [(key, value)]) := by
  have bound : Dict.bind key value entries = entries ++ [(key, value)] := by
    induction entries with
    | nil => rfl
    | cons head rest ih =>
      obtain ⟨k, v⟩ := head
      by_cases hk : k = key
      · simp [Dict.lookup, hk] at h
      · simp only [Dict.lookup, if_neg hk] at h
        simp [Dict.bind, hk, ih h]
  simp [bindAt?, addAt?, h, bound]

end MacroMarkup.Toml
