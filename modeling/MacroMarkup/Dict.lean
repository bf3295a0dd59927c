/-!
# Finite maps from texts

A `Dict` is an association list in which a key is bound once.  `set` replaces
the value of a bound key in its place and puts a new key at the end.

* `get?_set`: reading after writing.
-/

namespace MacroMarkup

/-- A finite map from texts, in the order in which keys were first bound. -/
structure Dict (α : Type) where
  entries : List (String × α)
deriving Repr

namespace Dict

variable {α : Type}

def empty : Dict α := ⟨[]⟩

instance : Inhabited (Dict α) := ⟨empty⟩

def lookup (key : String) : List (String × α) → Option α
  | [] => none
  | (k, v) :: rest => if k = key then some v else lookup key rest

def bind (key : String) (value : α) : List (String × α) → List (String × α)
  | [] => [(key, value)]
  | (k, v) :: rest => if k = key then (k, value) :: rest else (k, v) :: bind key value rest

def get? (d : Dict α) (key : String) : Option α := lookup key d.entries

def has (d : Dict α) (key : String) : Bool := (d.get? key).isSome

def set (d : Dict α) (key : String) (value : α) : Dict α := ⟨bind key value d.entries⟩

def setAll (d : Dict α) (pairs : List (String × α)) : Dict α :=
  pairs.foldl (fun d (key, value) => d.set key value) d

/-- The map of a list of pairs, in which later pairs win. -/
def ofList (pairs : List (String × α)) : Dict α := empty.setAll pairs

def keys (d : Dict α) : List String := d.entries.map (·.1)

theorem lookup_bind (key key' : String) (value : α) (entries : List (String × α)) :
    lookup key' (bind key value entries)
      = if key = key' then some value else lookup key' entries := by
  induction entries with
  | nil => rfl
  | cons head rest ih =>
    obtain ⟨k, v⟩ := head
    by_cases h : k = key
    · by_cases h' : key = key' <;> simp [bind, lookup, h, h']
    · by_cases h' : k = key'
      · subst h'
        simp [bind, lookup, h, Ne.symm h]
      · simp [bind, lookup, h, h', ih]

theorem get?_set (d : Dict α) (key key' : String) (value : α) :
    (d.set key value).get? key' = if key = key' then some value else d.get? key' :=
  lookup_bind key key' value d.entries

theorem get?_empty (key : String) : (empty : Dict α).get? key = none := rfl

end Dict

end MacroMarkup
