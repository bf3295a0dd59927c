/-!
# Layered registries of names

A `Registry` holds named entries in layers.  A look-up starts in the top layer
and falls through to the ones below; changes touch the top layer only, and
`derive` puts a new empty layer on top.  A layer has two indexes of the same
entries: one to find an entry by its name, and one by falling length of the names,
an entry behind those of the same length, so that the longest name that fits can be
found first.  Each change has to touch both.

* `Layer.byName`, `Layer.byLength`: the two indexes.
* `Registry.get?`, `Registry.names`, `Registry.definitions`: what is visible.
* `Registry.set`, `Registry.add`, `Registry.erase`: changes of the top layer.
* `Registry.findLongestM?`: the longest visible name that passes a test; of two
  equally long ones the upper wins.
* `get?_derive`: a new layer hides nothing.  `mem_insertName`: sorting names
  neither loses nor invents one.
-/

namespace MacroMarkup

/-- What can be kept in a registry. -/
class Named (α : Type) where
  /-- The name that an entry is found by. -/
  name : α → String

inductive NameError where
  /-- The top layer has the name already. -/
  | duplicateName (name : String)
  /-- The top layer does not have the name. -/
  | notFound (name : String)
deriving DecidableEq, Repr

def NameError.message : NameError → String
  | .duplicateName name => "name is already defined in this layer: " ++ name
  | .notFound name => "name is not defined in this layer: " ++ name

/-- Entries with distinct names, in two indexes. -/
structure Layer (α : Type) where
  /-- The entries to be found by name, one for each name. -/
  byName : List α
  /-- The entries by falling length of their names. -/
  byLength : List α

namespace Layer

section Members

variable {α : Type}

def empty : Layer α := ⟨[], []⟩

/-- An entry of a layer is one of either index. -/
instance : Membership α (Layer α) := ⟨fun layer x => x ∈ layer.byName ∨ x ∈ layer.byLength⟩

theorem mem_iff {x : α} {layer : Layer α} :
    x ∈ layer ↔ x ∈ layer.byName ∨ x ∈ layer.byLength := Iff.rfl

theorem not_mem_empty (x : α) : x ∉ (empty : Layer α) := by
  simp [mem_iff, empty]

end Members

variable {α : Type} [Named α]

def nameLength (x : α) : Nat := (Named.name x).toList.length

def get? (layer : Layer α) (name : String) : Option α :=
  layer.byName.find? fun x => Named.name x == name

def has (layer : Layer α) (name : String) : Bool := (get? layer name).isSome

/-- Puts an entry in the place of the one with its name, or behind all. -/
def bindIn (x : α) : List α → List α
  | [] => [x]
  | y :: ys => if Named.name y = Named.name x then x :: ys else y :: bindIn x ys

/-- Puts an entry behind those whose names are not shorter. -/
def sortIn (x : α) : List α → List α
  | [] => [x]
  | y :: ys => if nameLength x ≤ nameLength y then y :: sortIn x ys else x :: y :: ys

def without (name : String) (xs : List α) : List α := xs.filter fun x => Named.name x != name

def insert (x : α) (layer : Layer α) : Layer α :=
  ⟨bindIn x layer.byName, sortIn x layer.byLength⟩

def erase (layer : Layer α) (name : String) : Layer α :=
  ⟨without name layer.byName, without name layer.byLength⟩

/-- Puts in an entry in place of the one with its name. -/
def set (layer : Layer α) (x : α) : Layer α :=
  if has layer (Named.name x) then
    insert x { layer with byLength := without (Named.name x) layer.byLength }
  else insert x layer

theorem mem_bindIn {x y : α} {xs : List α} (h : y ∈ bindIn x xs) : y = x ∨ y ∈ xs := by
  induction xs with
  | nil => exact .inl (List.mem_singleton.mp h)
  | cons z zs ih =>
    unfold bindIn at h
    split at h
    · exact (List.mem_cons.mp h).imp_right (List.mem_cons_of_mem z)
    · rcases List.mem_cons.mp h with rfl | h
      · exact .inr List.mem_cons_self
      · exact (ih h).imp_right (List.mem_cons_of_mem z)

theorem mem_sortIn {x y : α} {xs : List α} : y ∈ sortIn x xs ↔ y = x ∨ y ∈ xs := by
  induction xs with
  | nil => simp [sortIn]
  | cons z zs ih =>
    unfold sortIn
    split
    · simp only [List.mem_cons, ih]
      exact or_left_comm
    · exact List.mem_cons

end Layer

structure Registry (α : Type) where
  /-- The layer that changes touch. -/
  top : Layer α
  /-- The layers that the top one is laid over, nearest first. -/
  below : List (Layer α)

namespace Registry

variable {α : Type} [Named α]

def empty : Registry α := ⟨.empty, []⟩

def layers (r : Registry α) : List (Layer α) := r.top :: r.below

/-- A new empty layer on top. -/
def derive (r : Registry α) : Registry α := ⟨.empty, r.layers⟩

/-- The entry of a name in the first layer that has one. -/
def lookup (name : String) : List (Layer α) → Option α
  | [] => none
  | layer :: rest => (Layer.get? layer name).or (lookup name rest)

def get? (r : Registry α) (name : String) : Option α := lookup name r.layers

def has (r : Registry α) (name : String) : Bool := (r.get? name).isSome

/-- Puts an entry into the top layer, replacing one of the same name there. -/
def set (r : Registry α) (x : α) : Registry α := { r with top := Layer.set r.top x }

/-- The first entry whose name the layer has or an earlier entry of the list
bears. -/
def firstTaken? (layer : Layer α) : List String → List α → Option String
  | _, [] => none
  | earlier, x :: rest =>
    if Layer.has layer (Named.name x) || earlier.contains (Named.name x) then some (Named.name x)
    else firstTaken? layer (Named.name x :: earlier) rest

/-- Puts new entries into the top layer, all or none. -/
def add (r : Registry α) (xs : List α) : Except NameError (Registry α) :=
  match firstTaken? r.top [] xs with
  | some name => .error (.duplicateName name)
  | none => .ok { r with top := xs.foldl (fun layer x => Layer.insert x layer) r.top }

/-- Takes an entry out of the top layer and answers it. -/
def erase (r : Registry α) (name : String) : Except NameError (α × Registry α) :=
  match Layer.get? r.top name with
  | none => .error (.notFound name)
  | some x => .ok (x, { r with top := Layer.erase r.top name })

/-- A registry of one layer; of entries with the same name the last one stays. -/
def ofList (xs : List α) : Registry α := xs.foldl set empty

def insertName (name : String) : List String → List String
  | [] => [name]
  | n :: ns =>
    if name = n then n :: ns
    else if name < n then name :: n :: ns
    else n :: insertName name ns

/-- Every visible name once, in rising order. -/
def names (r : Registry α) : List String :=
  r.layers.foldl (fun sorted layer =>
    layer.byName.foldl (fun sorted x => insertName (Named.name x) sorted) sorted) []

def definitions (r : Registry α) : List α := r.names.filterMap r.get?

def localSize (r : Registry α) : Nat := r.top.byName.length

/-- The entry with the longer name; of equally long ones the upper. -/
def longer : Option α → Option α → Option α
  | none, lower => lower
  | some upper, none => some upper
  | some upper, some lower =>
    if Layer.nameLength upper < Layer.nameLength lower then some lower else some upper

/-- The longest name in these layers that passes the test.  Each layer is tried in
its order up to the first name that passes. -/
def findLongestInM? {m : Type → Type} [Monad m] (test : String → m Bool) :
    List (Layer α) → m (Option α)
  | [] => pure none
  | layer :: rest => do
    let upper ← layer.byLength.findM? fun x => test (Named.name x)
    let lower ← findLongestInM? test rest
    return longer upper lower

/-- The longest visible name that passes the test. -/
def findLongestM? {m : Type → Type} [Monad m] (r : Registry α) (test : String → m Bool) :
    m (Option α) :=
  findLongestInM? test r.layers

def findLongest? (r : Registry α) (test : String → Bool) : Option α :=
  Id.run (r.findLongestM? fun name => pure (test name))

theorem get?_derive (r : Registry α) (name : String) : r.derive.get? name = r.get? name := rfl

theorem mem_insertName {a name : String} {ns : List String} :
    a ∈ insertName name ns ↔ a = name ∨ a ∈ ns := by
  induction ns with
  | nil => simp [insertName]
  | cons n ns ih =>
    unfold insertName
    split
    · rename_i h
      subst h
      simp
    · split
      · simp
      · simp only [List.mem_cons, ih]
        exact or_left_comm

end Registry

end MacroMarkup
