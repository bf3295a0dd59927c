import MacroMarkup.Macro.Registries

/-!
# Configurations

A `Configuration` is all that a source is read against: the registries of block,
inline and system modifiers and of interpolators, what has to be set up for them,
and how deep generated content may nest.

* `Configuration.set`, `add`, `erase`: change the registry of a kind.  Each
  definition that is put in gets a stamp of its own.
* `Configuration.derive`: a configuration whose changes do not reach this one.
-/

namespace MacroMarkup

/-- What a store slot is set up with when a context starts. -/
inductive Initializer where
  /-- The state of the macro modifiers. -/
  | macros
  /-- A number for the use of an embedding program. -/
  | counter (value : Int)
  /-- A text for the use of an embedding program. -/
  | label (value : String)
deriving DecidableEq, Repr

/-- All that a source is read against. -/
structure Configuration where
  blocks : Registry Definition
  inlines : Registry Definition
  systems : Registry Definition
  interpolators : Registry Interpolator
  initializers : List Initializer
  /-- How deep generated content may nest. -/
  depthLimit : Nat
  /-- The names that definitions were registered under so far, the last one first. -/
  history : List String

namespace Configuration

/-- How deep generated content may nest unless something else is said. -/
def defaultDepthLimit : Nat := 10

def empty : Configuration where
  blocks := .empty
  inlines := .empty
  systems := .empty
  interpolators := .empty
  initializers := []
  depthLimit := defaultDepthLimit
  history := []

/-- A configuration with new layers, whose changes do not reach this one. -/
def derive (c : Configuration) : Configuration :=
  { c with
    blocks := c.blocks.derive
    inlines := c.inlines.derive
    systems := c.systems.derive
    interpolators := c.interpolators.derive }

def modifiers (c : Configuration) : ModifierKind → Registry Definition
  | .block => c.blocks
  | .inline => c.inlines
  | .system => c.systems

def setModifiers (c : Configuration) (kind : ModifierKind) (registry : Registry Definition) :
    Configuration :=
  match kind with
  | .block => { c with blocks := registry }
  | .inline => { c with inlines := registry }
  | .system => { c with systems := registry }

def nextStamp (c : Configuration) : Nat := c.history.length

/-- The definition with a stamp that no other one has. -/
def stamped (c : Configuration) (d : Definition) : Definition × Configuration :=
  ({ d with stamp := c.nextStamp }, { c with history := d.name :: c.history })

/-- Registers a definition under its kind, replacing one of the same name in the top
layer. -/
def set (c : Configuration) (d : Definition) : Configuration :=
  let (d, c) := c.stamped d
  c.setModifiers d.kind ((c.modifiers d.kind).set d)

/-- Registers a definition under its kind, unless the top layer has its name. -/
def add (c : Configuration) (d : Definition) : Except NameError Configuration := do
  let (d, c) := c.stamped d
  let registry ← (c.modifiers d.kind).add [d]
  return c.setModifiers d.kind registry

/-- Takes a definition out of the top layer and answers it. -/
def erase (c : Configuration) (kind : ModifierKind) (name : String) :
    Except NameError (Definition × Configuration) := do
  let (d, registry) ← (c.modifiers kind).erase name
  return (d, c.setModifiers kind registry)

def setInterpolator (c : Configuration) (interpolator : Interpolator) : Configuration :=
  { c with interpolators := c.interpolators.set interpolator }

/-- Sets up one more slot, unless it is set up already. -/
def addInitializer (c : Configuration) (x : Initializer) : Configuration :=
  if c.initializers.contains x then c
  else { c with initializers := c.initializers ++ [x] }

def registries (c : Configuration) : Registries := ⟨c.blocks, c.inlines⟩

def setRegistries (c : Configuration) (r : Registries) : Configuration :=
  { c with blocks := r.blocks, inlines := r.inlines }

@[simp] theorem modifiers_setModifiers (c : Configuration) (kind : ModifierKind)
    (registry : Registry Definition) :
    (c.setModifiers kind registry).modifiers kind = registry := by
  cases kind <;> rfl

end Configuration

end MacroMarkup
