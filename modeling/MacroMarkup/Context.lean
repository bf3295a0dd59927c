import MacroMarkup.Configuration
import MacroMarkup.Fault
import MacroMarkup.Macro.State

/-!
# The state of a parse

A `Context` is what a source is read in and what it leaves behind: the live
configuration, the variables, and a store of slots, each of which is set up once
before it is used.

* `Slot`: a place that is empty until it is set up.
* `Context.start`: a fresh context over a configuration.
* `Context.macros`, `Context.modifyMacros`: the state of the macro modifiers.
* `Context.restore`: goes back to earlier registries; `revision_restore` says that
  this counts as a change.
-/

namespace MacroMarkup

/-- A place for a value, empty until it is set up. -/
structure Slot (α : Type) where
  value? : Option α
deriving Repr

namespace Slot

variable {α : Type}

def vacant : Slot α := ⟨none⟩

/-- Sets the slot up.  Doing so twice is a fault, and yet the new value is kept. -/
def setUp (slot : Slot α) (value : α) : Except Fault Unit × Slot α :=
  (if slot.value?.isSome then .error .repeatedSlot else .ok (), ⟨some value⟩)

def get (slot : Slot α) : Except Fault α :=
  match slot.value? with
  | some value => .ok value
  | none => .error .missingSlot

def set (slot : Slot α) (value : α) : Except Fault (Slot α) :=
  if slot.value?.isSome then .ok ⟨some value⟩ else .error .missingSlot

theorem get_of_setUp (slot : Slot α) (value : α) : (slot.setUp value).2.get = .ok value := rfl

end Slot

structure Store where
  macros : Slot MacroState
  counter : Slot Int
  label : Slot String

namespace Store

def vacant : Store := ⟨.vacant, .vacant, .vacant⟩

def setUp (store : Store) : Initializer → Except Fault Store
  | .macros => do
    let (done, slot) := store.macros.setUp .initial
    done
    return { store with macros := slot }
  | .counter value => do
    let (done, slot) := store.counter.setUp value
    done
    return { store with counter := slot }
  | .label value => do
    let (done, slot) := store.label.setUp value
    done
    return { store with label := slot }

end Store

structure Context where
  configuration : Configuration
  /-- The variables with their values. -/
  bindings : Dict String
  store : Store
  /-- How often the configuration was changed. -/
  revision : Nat

namespace Context

/-- A fresh context, with all slots of the configuration set up. -/
def start (configuration : Configuration) (bindings : Dict String) : Except Fault Context := do
  let store ← configuration.initializers.foldlM Store.setUp .vacant
  return ⟨configuration, bindings, store, 0⟩

def configurationChanged (cx : Context) : Context := { cx with revision := cx.revision + 1 }

def macros (cx : Context) : Except Fault MacroState := cx.store.macros.get

def modifyMacros (cx : Context) (f : MacroState → MacroState) : Except Fault Context := do
  let state ← cx.macros
  let slot ← cx.store.macros.set (f state)
  return { cx with store := { cx.store with macros := slot } }

def registries (cx : Context) : Registries := cx.configuration.registries

def restore (cx : Context) (r : Registries) : Context :=
  { cx with configuration := cx.configuration.setRegistries r }.configurationChanged

def setVariable (cx : Context) (name value : String) : Context :=
  { cx with bindings := cx.bindings.set name value }

theorem revision_restore (cx : Context) (r : Registries) :
    (cx.restore r).revision = cx.revision + 1 := rfl

end Context

end MacroMarkup
