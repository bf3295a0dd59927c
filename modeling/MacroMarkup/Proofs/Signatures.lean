import MacroMarkup.Proofs.Asking
import MacroMarkup.Proofs.Immediate

/-!
# What a definition counts

The last argument of a definition may give the name of its slot, in parentheses.  The others
behind the name are the parameters, and a use has to have as many arguments.  A slot name that
is empty is not told from none, so its parentheses count as one more parameter.

* `Signature.countedWith`: the parameters that come of those that are written.
* `Signature.ofArguments_slot`: what is read from arguments that end with a slot name.
* `Behaviour.HasRead`: the signature was read, which it is at each point behind the content.
* `ensures_making`: **a definition is made with its name, its slot name and its parameters.**
* `prepare_use_counted`, `finishModifier_use_miscounted`: **a use with as many arguments as
  there are parameters is silent about them; any other one is reported once and stands for
  nothing.**
* `Context.lifeBehind`, `Context.finishes_of_lifeBehind`: the life of a modifier that is read
  behind so many blocks.
* `definition_counts_parameters`: both, in every parse from a balanced context.
-/

namespace MacroMarkup

/-! ### The signature -/

/-- The parameters that are counted if these are written before a slot name: an empty slot name
leaves its parentheses among them. -/
def Signature.countedWith (slotName : String) (parameters : List String) : List String :=
  if slotName.isEmpty then parameters ++ ["()"] else parameters

def Context.register (cx : Context) (d : Definition) : Context :=
  { cx with configuration := cx.configuration.set d }.configurationChanged

def MacroKind.bodyOf : MacroKind → List Node → List Node
  | .block, content => content
  | .inline, content => (flattenInline false content).1

theorem Context.get?_register (cx : Context) (d : Definition) :
    ((cx.register d).configuration.modifiers d.kind).get? d.name
      = some { d with stamp := cx.configuration.nextStamp } :=
  (cx.configuration.get?_set d d.kind d.name).trans (if_pos ⟨rfl, rfl⟩)

theorem slotNameOf?_of_no_newline {slotName : String} (h : '\n' ∉ slotName.toList) :
    slotNameOf? ("(" ++ slotName ++ ")") = some slotName := by
  have hsource : "(" ++ slotName ++ ")" = String.ofList ('(' :: slotName.toList ++ [')']) := by
    apply String.toList_inj.mp
    simp
  rw [hsource, slotNameOf?_parenthesized h, String.ofList_toList]

/-- **What arguments that end with a slot name say.** -/
theorem Signature.ofArguments_slot {name : Argument} {others : List Argument}
    {given slotName : String} {parameters : List String} (hname : name.value = some given)
    (hothers : others.map Argument.value = (parameters ++ ["(" ++ slotName ++ ")"]).map some)
    (hslot : '\n' ∉ slotName.toList) :
    Signature.ofArguments name others
      = ⟨some given, slotName, countedWith slotName parameters, [], none⟩ := by
  have htexts : others.map Argument.text = parameters ++ ["(" ++ slotName ++ ")"] :=
    texts_of_values hothers
  rw [List.map_append, List.map_eq_append_iff] at hothers
  obtain ⟨first, ends, rfl, hfirst, hends⟩ := hothers
  obtain ⟨last, rfl, hlast⟩ : ∃ last, ends = [last] ∧
      last.value = some ("(" ++ slotName ++ ")") := by
    simpa [List.map_eq_cons_iff] using hends
  have hof : slotOf (first ++ [last]) = (slotName, []) := by
    rw [slotOf, List.getLast?_concat]
    simp only [hlast, slotNameOf?_of_no_newline hslot, Option.getD_some]
  have hvalues : ∀ a ∈ first ++ [last], a.value.isNone = false := by
    intro a ha
    rcases List.mem_append.mp ha with ha | ha
    · obtain ⟨text, -, htext⟩ :=
        List.mem_map.mp (hfirst ▸ List.mem_map_of_mem (f := Argument.value) ha)
      rw [← htext]
      rfl
    · rw [List.mem_singleton.mp ha, hlast]
      rfl
  have hnone : ∀ arguments ⊆ first ++ [last], arguments.filter (·.value.isNone) = [] := by
    intro arguments hsub
    refine List.filter_eq_nil_iff.mpr fun a ha => ?_
    rw [hvalues a (hsub ha)]
    exact Bool.false_ne_true
  simp only [ofArguments, hof, hname, List.nil_append, countedWith]
  by_cases hempty : slotName.isEmpty = true
  · have hparentheses : "(" ++ slotName ++ ")" = "()" := by
      rw [String.isEmpty_iff.mp hempty]
      rfl
    rw [if_pos hempty, if_pos hempty, htexts, hnone _ (List.Subset.refl _), hparentheses]
    rfl
  · have hall : first.map Argument.text = parameters := texts_of_values hfirst
    rw [if_neg hempty, if_neg hempty, List.dropLast_concat, hall,
      hnone _ (List.subset_append_left _ _)]
    rfl

/-! ### The definition -/

section Making

variable {kind : MacroKind} {cx : Context} {m : Modifier}

/-- The signature of a definition was read from its arguments. -/
def Behaviour.HasRead (arguments : List Argument) : (b : Behaviour) → b.lifecycle.State → Prop
  | .define _ => fun state : Option Signature =>
    ∀ name others, arguments = name :: others → state = some (.ofArguments name others)
  | _ => fun _ => True

theorem ensures_beforeContent_reads {immediate : Bool} :
    Ensures anyFault ((defineLifecycle kind).beforeContent m immediate) cx fun r _ =>
      ∀ name others, m.arguments = name :: others → r.1 = some (.ofArguments name others) := by
  simp only [defineLifecycle]
  split
  · rename_i problem hproblem
    intro name others harguments
    have hnone : checkCount? m 1 none = none :=
      checkCount?_eq_none_iff.mpr ⟨by simp [harguments], fun _ h => by cases h⟩
    rw [hproblem] at hnone
    cases hnone
  · split
    · rename_i first rest harguments
      rw [ensures_bind]
      refine ensures_of_forall fun _ _ name others hcons => ?_
      rw [harguments] at hcons
      cases hcons
      rfl
    · rename_i hnil
      intro name others harguments
      rw [hnil] at harguments
      cases harguments

theorem ensures_afterContent_returns {state : Option Signature} :
    Ensures anyFault ((defineLifecycle kind).afterContent state) cx fun r _ => r = state := by
  cases state with
  | none => rfl
  | some signature =>
    simp only [defineLifecycle, ensures_bind]
    refine ensures_of_forall fun macros _ => ?_
    split
    · exact trivial
    · simp only [ensures_ite, ensures_bind]
      exact ⟨fun _ => trivial, fun _ => ensures_of_forall fun _ _ => rfl⟩

theorem hasRead_beforeContent {e : Engine} {immediate : Bool} :
    Ensures anyFault
      (Expand.reporting (m.definition.behaviour.lifecycle.beforeContent m immediate)) e
      fun state _ => m.definition.behaviour.HasRead m.arguments state := by
  rw [ensures_reporting]
  cases m.definition.behaviour with
  | define kind => exact ensures_beforeContent_reads
  | _ => exact ensures_of_forall fun _ _ => trivial

theorem hasRead_afterContent {e : Engine} {state : m.definition.behaviour.lifecycle.State}
    (hstate : m.definition.behaviour.HasRead m.arguments state) :
    Ensures anyFault (Expand.inContext (m.definition.behaviour.lifecycle.afterContent state)) e
      fun state _ => m.definition.behaviour.HasRead m.arguments state := by
  rw [ensures_inContext]
  generalize m.definition.behaviour = b at state hstate ⊢
  cases b with
  | define kind =>
    refine ensures_afterContent_returns.mono ?_
    rintro _ _ rfl
    exact hstate
  | _ => exact ensures_of_forall fun _ _ => trivial

/-- A definition that is about to be made has read its signature. -/
theorem Context.Finishes.hasRead {R : Regime} {state : m.definition.behaviour.lifecycle.State}
    {e : Engine} (h : cx.Finishes m state e) (hcx : (Engine.start cx).Sound R) :
    m.definition.behaviour.HasRead m.arguments state := by
  obtain ⟨earlier, closed, hcloses, hrun, -⟩ := h
  obtain ⟨begun, opened, hover⟩ := hcloses.lasts hcx
  obtain ⟨span, content, hbegins⟩ := hover.begins
  have hearlier : m.definition.behaviour.HasRead m.arguments earlier :=
    (hasRead_beforeContent (m := { m with span := span, content := content })).of_ok hbegins
  exact (hasRead_afterContent hearlier).of_ok hrun

/-- **A definition is made** of its signature and its content. -/
theorem ensures_making {name slotName : String} {parameters : List String}
    {b : Behaviour} (hb : b = .define kind) {state : b.lifecycle.State}
    (hstate : b.HasRead m.arguments state) {first : Argument} {others : List Argument}
    (harguments : m.arguments = first :: others)
    (hsignature : Signature.ofArguments first others = ⟨some name, slotName, parameters, [], none⟩)
    (hname : name ≠ "") :
    Ensures noFault (b.lifecycle.prepare m state true) cx fun r between =>
      Ensures noFault (b.lifecycle.expand m r.1 true) between fun decided cx' =>
        decided.1 = .replace [] ∧
          cx' = cx.register (.custom kind name parameters slotName (kind.bodyOf m.content)) := by
  subst hb
  obtain rfl : state = some ⟨some name, slotName, parameters, [], none⟩ :=
    hsignature ▸ hstate first others harguments
  have hgiven : name.isEmpty = false := by
    rw [Bool.eq_false_iff, ne_eq, String.isEmpty_iff]
    exact hname
  show Ensures noFault ((defineLifecycle kind).prepare m _ true) cx fun r between =>
    Ensures noFault ((defineLifecycle kind).expand m r.1 true) between _
  cases kind with
  | block =>
    simp only [defineLifecycle, Bool.not_true, Bool.false_eq_true, if_false, Option.getD_some,
      hgiven, ensures_bind, ensures_get, ensures_pure, Bool.not_false, if_true, Option.getD_none]
    exact ⟨rfl, rfl⟩
  | inline =>
    simp only [defineLifecycle, Bool.not_true, Bool.false_eq_true, if_false, Option.getD_some,
      hgiven, ensures_bind, ensures_get, ensures_pure, Bool.not_false, if_true]
    exact ⟨rfl, rfl⟩

end Making

/-! ### The use -/

section Using

variable {kind : MacroKind} {name slotName : String} {parameters : List String}
  {body : List Node} {m : Modifier} {e : Engine} {cx : Context} {immediate : Bool}

/-- The report that a modifier does not have this many arguments. -/
def Modifier.miscounted (m : Modifier) (count : Nat) : Message :=
  (Problem.argumentCount count (some count)).message m.head

theorem checkCount?_exactly (count : Nat) : checkCount? m count (some count)
    = if m.arguments.length = count then none else some (m.miscounted count) := by
  by_cases hcount : m.arguments.length = count
  · rw [if_pos hcount, checkCount?_eq_none_iff]
    exact ⟨hcount.ge, fun limit hlimit => hcount.le.trans_eq (Option.some.inj hlimit)⟩
  · rw [if_neg hcount, checkCount?]
    by_cases hless : m.arguments.length < count
    · exact if_pos hless
    · have hmore : count < m.arguments.length := by omega
      rw [if_neg hless]
      exact if_pos hmore

section Behaviours

variable {b : Behaviour} (hb : b = .custom kind name parameters slotName body)
  {state : b.lifecycle.State}
include hb

theorem ensures_beforeContent_use : Ensures noFault (b.lifecycle.beforeContent m immediate) cx
    fun r inside => inside = cx ∧ r.2 = [] := by
  subst hb
  exact ⟨rfl, rfl⟩

/-- With as many arguments as parameters a use says nothing. -/
theorem ensures_prepare_counted (hvalues : ∀ a ∈ m.arguments, a.value.isSome = true)
    (hlength : m.arguments.length = parameters.length) :
    Ensures noFault (b.lifecycle.prepare m state immediate) cx fun r between =>
      between = cx ∧ r.2 = [] := by
  subst hb
  have hcheck : checkArguments? m parameters.length (some parameters.length) = none := by
    rw [checkArguments?_eq_checkCount? hvalues, checkCount?_exactly, if_pos hlength]
  simp only [Behaviour.lifecycle, customLifecycle, hcheck, ensures_pure]
  exact ⟨trivial, trivial⟩

/-- With any other number of arguments a use is reported, and keeps its state. -/
theorem ensures_prepare_miscounted (hvalues : ∀ a ∈ m.arguments, a.value.isSome = true)
    (hlength : m.arguments.length ≠ parameters.length) :
    Ensures noFault (b.lifecycle.prepare m state immediate) cx fun r between =>
      between = cx ∧ r = (state, [m.miscounted parameters.length]) := by
  subst hb
  have hcheck : checkArguments? m parameters.length (some parameters.length)
      = some (m.miscounted parameters.length) := by
    rw [checkArguments?_eq_checkCount? hvalues, checkCount?_exactly, if_neg hlength]
  simp only [Behaviour.lifecycle, customLifecycle, hcheck, ensures_pure]
  exact ⟨trivial, trivial⟩

theorem ensures_expand_idle : Ensures noFault (b.lifecycle.expand m b.lifecycle.idle immediate) cx
    fun d decided => decided = cx ∧ d.1 = .replace [] := by
  subst hb
  exact ⟨rfl, rfl⟩

theorem rests_use (hstate : b.Rests state) : state = b.lifecycle.idle := by
  subst hb
  exact hstate

end Behaviours

variable {state : m.definition.behaviour.lifecycle.State}
  (huses : m.definition.behaviour = .custom kind name parameters slotName body)
include huses

/-- **A use with as many arguments as parameters** is silent about them. -/
theorem prepare_use_counted (hvalues : ∀ a ∈ m.arguments, a.value.isSome = true)
    (hlength : m.arguments.length = parameters.length) :
    ∃ prepared, Expand.reporting
      (m.definition.behaviour.lifecycle.prepare m state e.immediate) e = .ok (prepared, e) := by
  have hsilent : Ensures noFault
      (Expand.reporting (m.definition.behaviour.lifecycle.prepare m state e.immediate)) e
      fun _ e' => e' = e := by
    rw [ensures_reporting]
    refine (ensures_prepare_counted huses hvalues hlength).mono ?_
    rintro ⟨_, _⟩ _ ⟨rfl, rfl⟩
    rfl
  obtain ⟨prepared, e', hrun, rfl⟩ := hsilent.exists_ok
  exact ⟨prepared, hrun⟩

/-- **Any other use is reported once and stands for nothing**: no frame is laid on a stack, and
nothing else is done. -/
theorem finishModifier_use_miscounted (hstate : m.definition.behaviour.Rests state)
    (hvalues : ∀ a ∈ m.arguments, a.value.isSome = true)
    (hlength : m.arguments.length ≠ parameters.length) (walk : Walk) (outermost : Bool) :
    finishModifier walk outermost m state e
      = .ok (({ m with expansion := some [] }, true), e.emit [m.miscounted parameters.length]) := by
  have hfinish : Ensures noFault (finishModifier walk outermost m state) e fun r e' =>
      r = ({ m with expansion := some [] }, true) ∧
        e' = e.emit [m.miscounted parameters.length] := by
    simp only [ensures_finishModifier_iff, ensures_reporting, ensures_inContext]
    refine (ensures_prepare_miscounted huses hvalues hlength).mono ?_
    rintro _ _ ⟨rfl, rfl⟩
    rw [rests_use huses hstate]
    refine (ensures_expand_idle huses).mono ?_
    rintro ⟨outcome, decided⟩ _ ⟨rfl, houtcome⟩
    cases houtcome
    refine ensures_processNodes_nil.mpr ⟨fun hwaits => ?_, fun _ => ⟨rfl, rfl⟩⟩
    simp [areResolved] at hwaits
  obtain ⟨_, _, hrun, rfl, rfl⟩ := hfinish.exists_ok
  exact hrun

theorem beforeContent_use_silent (begun : Engine) : ∃ idle, Expand.reporting
    (m.definition.behaviour.lifecycle.beforeContent m begun.immediate) begun
      = .ok (idle, begun) := by
  have hsilent : Ensures noFault
      (Expand.reporting (m.definition.behaviour.lifecycle.beforeContent m begun.immediate))
      begun fun _ e' => e' = begun := by
    rw [ensures_reporting]
    refine (ensures_beforeContent_use huses).mono ?_
    rintro ⟨_, _⟩ _ ⟨rfl, rfl⟩
    rfl
  obtain ⟨idle, _, hrun, rfl⟩ := hsilent.exists_ok
  exact ⟨idle, hrun⟩

end Using

/-! ### Parses -/

/-- A use that is not left alone is visited immediately, so its arguments have values. -/
theorem Context.Finishes.values {cx : Context} {m : Modifier} {e : Engine}
    {state : m.definition.behaviour.lifecycle.State} (h : cx.Finishes m state e)
    (hcx : (Engine.start cx).Sound .timely) (hahead : m.definition.alwaysExpands = false) :
    ∀ a ∈ m.arguments, a.value.isSome = true := by
  have himmediate : e.immediate = true := by
    obtain ⟨-, -, -, -, halone⟩ := h
    rw [hahead] at halone
    simpa using halone
  exact (h.lasts hcx).1.values_of_immediate trivial himmediate

def Behaviour.defines? : Behaviour → Option MacroKind
  | .define kind => some kind
  | _ => none

theorem Behaviour.eq_define {b : Behaviour} {kind : MacroKind} (h : b.defines? = some kind) :
    b = .define kind := by
  cases b <;> simp_all [defines?]

/-- What a definition that a document made says of itself, apart from its body. -/
def Definition.custom? (d : Definition) : Option (MacroKind × String × List String × String) :=
  match d.behaviour with
  | .custom kind name parameters slotName _ =>
    if (d.name, d.kind, d.slot, d.delaysContent, d.alwaysExpands)
        = (name, kind.modifierKind, .normal, true, false)
      then some (kind, name, parameters, slotName) else none
  | _ => none

theorem Definition.exists_custom {d : Definition} {kind : MacroKind} {name slotName : String}
    {parameters : List String} (h : d.custom? = some (kind, name, parameters, slotName)) :
    ∃ body, d = { custom kind name parameters slotName body with stamp := d.stamp } := by
  obtain ⟨stamp, name', kind', slot, delays, always, behaviour⟩ := d
  cases behaviour <;> simp_all [custom?, custom]

/-- A modifier behind its content, with its state and the engine. -/
abbrev Life := (m : Modifier) × m.definition.behaviour.lifecycle.State × Engine

def Life.isFinal (life : Life) : Bool :=
  decide (life.1.span.start ≤ life.1.head.stop) && life.2.2.immediate

/-- The life of a modifier that is read here, up to the point behind its content. -/
def Reader.life (r : Reader) (fuel : Nat) (kind : ModifierKind) : Except Fault Life := do
  let (head, r₁) ← Parse.readHead kind r
  let definition := head.modifier.definition
  let (state, opened) ← Expand.reporting
    (definition.behaviour.lifecycle.beforeContent head.modifier r₁.engine.immediate) r₁.engine
  let ((content, _), r₂) ← Parse.readBody fuel kind head
    { r₁ with engine := opened.inBody definition.delaysContent }
  let (state, e) ← Expand.inContext (definition.behaviour.lifecycle.afterContent state)
    { r₂.engine with delayDepth := r₂.engine.delayDepth - definition.delaysContent.toNat }
  return ⟨{ head.modifier with content := content }, state, e⟩

/-- A modifier that is read in a parse finishes at the end of its life, if it is visited for
good. -/
theorem Context.finishes_of_life {cx : Context} {r : Reader} {fuel : Nat} {kind : ModifierKind}
    {life : Life} (hr : cx.Reads r) (hrun : r.life fuel kind = .ok life)
    (hfinal : life.isFinal = true) : cx.Finishes life.1 life.2.1 life.2.2 := by
  have hrun := congrArg Except.toOption hrun
  obtain ⟨⟨head, r₁⟩, hhead, hrun⟩ := exists_ok_of_bind hrun
  obtain ⟨⟨before, opened⟩, hopens, hrun⟩ := exists_ok_of_bind hrun
  obtain ⟨⟨⟨content, continues⟩, r₂⟩, hbody, hrun⟩ := exists_ok_of_bind hrun
  obtain ⟨⟨after, e'⟩, hafter, hrun⟩ := exists_ok_of_bind hrun
  cases hrun
  obtain ⟨hplaced, himmediate⟩ := Bool.and_eq_true_iff.mp hfinal
  have himmediate : e'.immediate = true := himmediate
  have hopened : head.modifier.OpensAt r before _ :=
    ⟨kind, head, r₁, opened, hhead, rfl, hopens, rfl⟩
  exact ⟨before, _, .read hr hopened (.body hbody) (of_decide_eq_true hplaced), hafter,
    by rw [himmediate]; rfl⟩

/-- Reads so many blocks, and what stands between them and the next one. -/
def Parse.readPast (fuel : Nat) : Nat → Parse Unit
  | 0 => pure ()
  | count + 1 => do
    let _ ← readBlock fuel
    skipSpacing
    readPast fuel count

theorem Context.Reads.past {cx : Context} {fuel count : Nat} : ∀ {r r' : Reader}, cx.Reads r →
    Parse.readPast fuel count r = .ok ((), r') → cx.Reads r' := by
  induction count with
  | zero =>
    intro r r' hr hrun
    cases hrun
    exact hr
  | succ count ih =>
    intro r r' hr hrun
    obtain ⟨_, r₁, hblock, hrun⟩ := ok_of_bind hrun
    obtain ⟨_, r₂, hskip, hrun⟩ := ok_of_bind hrun
    have hskips : Ensures anyFault Parse.skipSpacing r₁ fun _ r => r₁.Scans r :=
      ensures_skipSpacing fun _ h => h
    exact ih (.scan (.behind hr (.block hblock)) (hskips.of_ok hskip)) hrun

def Context.lifeBehind (cx : Context) (source : String) (count : Nat) (kind : ModifierKind) :
    Except Fault Life := do
  let fuel := readingDepth source.toList.length
  let (_, r) ← Parse.readPast fuel count (.start cx source [])
  r.life fuel kind

/-- **The modifiers behind the blocks of a source finish in its parse**, if they are visited for
good. -/
theorem Context.finishes_of_lifeBehind {cx : Context} {source : String} {count : Nat}
    {kind : ModifierKind} {life : Life} (hrun : cx.lifeBehind source count kind = .ok life)
    (hfinal : life.isFinal = true) : cx.Finishes life.1 life.2.1 life.2.2 := by
  obtain ⟨⟨_, r⟩, hpast, hlife⟩ := exists_ok_of_bind (congrArg Except.toOption hrun)
  have hlife : r.life _ kind = .ok life := mem_toOption.mp (Option.mem_toList.mpr hlife)
  exact Context.finishes_of_life (Context.Reads.past (.start source []) hpast) hlife hfinal

/-- A definition that is visited immediately is made from its arguments, and stands for
nothing. -/
theorem Context.Finishes.makes {cx : Context} {m : Modifier} {e : Engine} {kind : MacroKind}
    {name slotName : String} {parameters : List String}
    {state : m.definition.behaviour.lifecycle.State} (h : cx.Finishes m state e)
    (hcx : (Engine.start cx).Sound .timely) (hdefines : m.definition.behaviour = .define kind)
    (himmediate : e.immediate = true)
    (hvalues : m.arguments.map Argument.value
      = (name :: (parameters ++ ["(" ++ slotName ++ ")"])).map some)
    (hname : name ≠ "") (hslot : '\n' ∉ slotName.toList) :
    ∃ prepared between decided e',
      Expand.reporting (m.definition.behaviour.lifecycle.prepare m state e.immediate) e
        = .ok (prepared, between) ∧
      Expand.inContext (m.definition.behaviour.lifecycle.expand m prepared e.immediate) between
        = .ok (decided, e') ∧
      decided.1 = .replace [] ∧ e'.context = e.context.register (.custom kind name
        (Signature.countedWith slotName parameters) slotName (kind.bodyOf m.content)) := by
  obtain ⟨first, others, harguments, hfirst, hothers⟩ : ∃ first others,
      m.arguments = first :: others ∧ first.value = some name ∧
      others.map Argument.value = (parameters ++ ["(" ++ slotName ++ ")"]).map some := by
    simpa [List.map_eq_cons_iff] using hvalues
  have hmaking : Ensures noFault
      (Expand.reporting (m.definition.behaviour.lifecycle.prepare m state e.immediate)) e
      fun prepared between => Ensures noFault
        (Expand.inContext (m.definition.behaviour.lifecycle.expand m prepared e.immediate))
        between fun decided e' => decided.1 = .replace [] ∧
          e'.context = e.context.register (.custom kind name
            (Signature.countedWith slotName parameters) slotName (kind.bodyOf m.content)) := by
    rw [ensures_reporting, himmediate]
    refine (ensures_making hdefines (h.hasRead hcx) harguments
      (Signature.ofArguments_slot hfirst hothers hslot) hname).mono fun r between hr => ?_
    rw [ensures_inContext]
    exact hr
  obtain ⟨prepared, between, hprepare, hexpands⟩ := hmaking.exists_ok
  obtain ⟨decided, e', hexpand, hdecided, hregisters⟩ := hexpands.exists_ok
  exact ⟨prepared, between, decided, e', hprepare, hexpand, hdecided, hregisters⟩

/-- **A definition counts the parameters of its uses.**  Take a definition that is visited
immediately in a parse from a balanced context, whose arguments are a name, parameters, and a slot
name without line breaks in parentheses.  It is registered with this slot name, and its
parameters are those that are written, with the parentheses as one more if the slot name is empty.
A use of it in such a parse says nothing of its own if it has as many arguments; with any other
number that is reported once, and the use stands for nothing and lays no frame on a stack. -/
theorem definition_counts_parameters {cx : Context} {s : MacroState}
    (hcx : cx.Stores (.ordinary True)) (hs : cx.macros = .ok s) (hbalanced : s.isBalanced = true)
    (kind : MacroKind) {name slotName : String} (parameters : List String) (hname : name ≠ "")
    (hslot : '\n' ∉ slotName.toList) :
    let counted := Signature.countedWith slotName parameters
    let made := Definition.custom kind name counted slotName
    (∀ (m : Modifier) (state : m.definition.behaviour.lifecycle.State) (e : Engine),
      cx.Finishes m state e → m.definition.behaviour = .define kind → e.immediate = true →
      m.arguments.map Argument.value
        = (name :: (parameters ++ ["(" ++ slotName ++ ")"])).map some →
      ∃ prepared between decided e',
        Expand.reporting (m.definition.behaviour.lifecycle.prepare m state e.immediate) e
          = .ok (prepared, between) ∧
        Expand.inContext (m.definition.behaviour.lifecycle.expand m prepared e.immediate) between
          = .ok (decided, e') ∧
        decided.1 = .replace [] ∧ e'.context = e.context.register (made (kind.bodyOf m.content)) ∧
        (e'.context.configuration.modifiers kind.modifierKind).get? name
          = some { made (kind.bodyOf m.content) with
            stamp := e.context.configuration.nextStamp }) ∧
    ∀ (m : Modifier) (state : m.definition.behaviour.lifecycle.State) (e : Engine) (stamp : Nat)
      (body : List Node), cx.Finishes m state e → m.definition = { made body with stamp := stamp } →
      (∀ begun : Engine, ∃ idle, Expand.reporting
        (m.definition.behaviour.lifecycle.beforeContent m begun.immediate) begun
          = .ok (idle, begun)) ∧
      (m.arguments.length = counted.length → ∃ prepared,
        Expand.reporting (m.definition.behaviour.lifecycle.prepare m state e.immediate) e
          = .ok (prepared, e)) ∧
      (m.arguments.length ≠ counted.length → ∀ (walk : Walk) (outermost : Bool),
        finishModifier walk outermost m state e = .ok (({ m with expansion := some [] }, true),
          e.emit [(Problem.argumentCount counted.length
            (some counted.length)).message m.head])) := by
  intro counted made
  have hstart : (Engine.start cx).Sound .timely := Context.timely_start hcx hs hbalanced
  constructor
  · intro m state e hfinishes hdefines himmediate hvalues
    obtain ⟨prepared, between, decided, e', hprepare, hexpand, hdecided, hregisters⟩ :=
      hfinishes.makes hstart hdefines himmediate hvalues hname hslot
    refine ⟨prepared, between, decided, e', hprepare, hexpand, hdecided, hregisters, ?_⟩
    rw [hregisters]
    exact e.context.get?_register (made (kind.bodyOf m.content))
  · intro m state e stamp body hfinishes hmade
    have huses : m.definition.behaviour = .custom kind name counted slotName body := by
      rw [hmade]
      rfl
    have hvalues : ∀ a ∈ m.arguments, a.value.isSome = true :=
      hfinishes.values hstart (by rw [hmade]; rfl)
    exact ⟨beforeContent_use_silent huses,
      fun hlength => prepare_use_counted huses hvalues hlength,
      fun hlength walk outermost => finishModifier_use_miscounted huses
        (hfinishes.lasts hstart).2 hvalues hlength walk outermost⟩

/-- A definition whose slot name is empty has one parameter, so its use without arguments is
reported. -/
theorem definition_counts_parameters_unnamed :
    let source := "[-define-block p:()][.slot]\n\n[.p]abc"
    ∃ cx d, Context.start Builtin.configuration .empty = .ok cx ∧ cx.parse source = .ok d ∧
      d.messages.map (fun m => (m.severity, m.code, m.links.map Message.range))
        = [(.error, 4, [(29, 4)])] ∧
      -- the definition
      (∃ (m : Modifier) (state : m.definition.behaviour.lifecycle.State) (e : Engine),
        cx.Finishes m state e ∧ m.arguments.map Argument.value = [some "p", some "()"] ∧
        ∃ prepared between decided e',
          Expand.reporting (m.definition.behaviour.lifecycle.prepare m state e.immediate) e
            = .ok (prepared, between) ∧
          Expand.inContext (m.definition.behaviour.lifecycle.expand m prepared e.immediate) between
            = .ok (decided, e') ∧
          e'.context = e.context.register (.custom .block "p" ["()"] "" m.content)) ∧
      -- its use
      ∃ (m : Modifier) (state : m.definition.behaviour.lifecycle.State) (e : Engine)
        (body : List Node), cx.Finishes m state e ∧
        m.definition = { Definition.custom .block "p" ["()"] "" body with
          stamp := m.definition.stamp } ∧ m.arguments = [] ∧
        ∀ (walk : Walk) (outermost : Bool), finishModifier walk outermost m state e
          = .ok (({ m with expansion := some [] }, true),
            e.emit [(Problem.argumentCount 1 (some 1)).message m.head]) := by
  intro source
  have hrun : (do
      let cx ← Context.start Builtin.configuration .empty
      let d ← cx.parse source
      let made ← cx.lifeBehind source 0 .system
      let used ← cx.lifeBehind source 1 .block
      return [decide (d.messages.map (fun m : Message =>
          (m.severity, m.code, m.links.map Message.range)) = [(Severity.error, 4, [(29, 4)])]),
        made.isFinal, decide (made.1.definition.behaviour.defines? = some MacroKind.block),
        decide (made.1.arguments.map Argument.value = [some "p", some "()"]),
        used.isFinal,
        decide (used.1.definition.custom? = some (MacroKind.block, "p", ["()"], "")),
        used.1.arguments.isEmpty]).toOption = some (List.replicate 7 true) := by
    decide +kernel
  obtain ⟨cx, hcx, hrun⟩ := exists_ok_of_bind hrun
  obtain ⟨d, hd, hrun⟩ := exists_ok_of_bind hrun
  obtain ⟨made, hmade, hrun⟩ := exists_ok_of_bind hrun
  obtain ⟨used, hused, hrun⟩ := exists_ok_of_bind hrun
  have hfacts := Option.some.inj hrun
  simp only [List.replicate, List.cons.injEq, decide_eq_true_eq, and_true] at hfacts
  obtain ⟨hmessages, hfinal, hdefines, hvalues, hfinal', hcustom, hnone⟩ := hfacts
  obtain ⟨hstores, hmacros⟩ := Builtin.ordinary_start hcx
  have hempty : '\n' ∉ "".toList := by
    decide
  obtain ⟨hmakes, huses⟩ :=
    definition_counts_parameters hstores hmacros rfl .block [] (by decide : "p" ≠ "") hempty
  have hfinishes := Context.finishes_of_lifeBehind hmade hfinal
  have hfinishes' := Context.finishes_of_lifeBehind hused hfinal'
  obtain ⟨m, state, e⟩ := made
  obtain ⟨m', state', e'⟩ := used
  obtain ⟨prepared, between, decided, after, hprepare, hexpand, -, hregisters, -⟩ :=
    hmakes m state e hfinishes (Behaviour.eq_define hdefines)
      (Bool.and_eq_true_iff.mp hfinal).2 hvalues
  obtain ⟨body, hbody⟩ := Definition.exists_custom hcustom
  have hnone : m'.arguments = [] := List.isEmpty_iff.mp hnone
  obtain ⟨-, -, hmiscounted⟩ := huses m' state' e' _ body hfinishes' hbody
  exact ⟨cx, d, hcx, hd, hmessages,
    ⟨m, state, e, hfinishes, hvalues, prepared, between, decided, after, hprepare, hexpand,
      hregisters⟩,
    m', state', e', body, hfinishes', hbody, hnone, hmiscounted (by rw [hnone]; decide)⟩

end MacroMarkup
