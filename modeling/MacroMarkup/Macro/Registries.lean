import MacroMarkup.Document.Node

/-!
# The block and inline registries as a value

`Registries` is what a document can change by definitions: the registry of block
modifiers and that of inline modifiers.  They are kept and put back as a whole,
compared, and merged with the definitions of a module.

* `Registries.addedSince`: the visible definitions that were not visible before.
* `Registries.merge`: registers the definitions of a module and answers the names
  that were bound to something else.
* `merge_nil`: a module without definitions changes nothing.
-/

namespace MacroMarkup

/-- The definitions that a module holds, each list in the order of the names. -/
structure ModuleRecord where
  blocks : List Definition
  inlines : List Definition

/-- The registries that a document can change. -/
structure Registries where
  blocks : Registry Definition
  inlines : Registry Definition

namespace Registries

def added (now earlier : Registry Definition) : List Definition :=
  now.definitions.filter fun d =>
    match earlier.get? d.name with
    | some old => old.stamp != d.stamp
    | none => true

/-- The definitions visible here that were not visible in `earlier`. -/
def addedSince (now earlier : Registries) : ModuleRecord :=
  ⟨added now.blocks earlier.blocks, added now.inlines earlier.inlines⟩

/-- Registers definitions one after another.  A name that is bound to another
definition is reported, and bound anew only if `replace` is set. -/
def mergeInto (replace : Bool) (registry : Registry Definition) :
    List Definition → Registry Definition × List String
  | [] => (registry, [])
  | d :: rest =>
    match registry.get? d.name with
    | none => mergeInto replace (registry.set d) rest
    | some existing =>
      if existing.stamp = d.stamp then mergeInto replace registry rest
      else
        let registry := if replace then registry.set d else registry
        let (merged, clashes) := mergeInto replace registry rest
        (merged, d.name :: clashes)

/-- Registers the definitions of a module.  The clashing names are written as heads
of modifiers, those of blocks first. -/
def merge (replace : Bool) (registries : Registries) (record : ModuleRecord) :
    Registries × List String :=
  let (blocks, blockClashes) := mergeInto replace registries.blocks record.blocks
  let (inlines, inlineClashes) := mergeInto replace registries.inlines record.inlines
  (⟨blocks, inlines⟩,
    blockClashes.map (fun name => "[." ++ name ++ "]")
      ++ inlineClashes.map fun name => "[/" ++ name ++ "]")

theorem merge_nil (replace : Bool) (registries : Registries) :
    registries.merge replace ⟨[], []⟩ = (registries, []) := rfl

end Registries

end MacroMarkup
