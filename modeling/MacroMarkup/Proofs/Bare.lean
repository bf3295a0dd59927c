import MacroMarkup.Proofs.Fresh
import MacroMarkup.Proofs.World

/-!
# Contexts without macros

A context can be made from a configuration that does not set up the state of the macros.
Plain modifiers, printing and raw text do not ask for it.  Whatever does ask fails, and this
is the only way to fail: up to there the context stays as bare as it was.

* `Context.Bare`: the state of the macros was never set up, and no name is empty.
* `Step.StaysBare`: a step that fails for want of that state or leaves the context bare,
  with a rule for each way of building one; `staysBare` says that every lifecycle consists
  of such steps.
* `Upkeep.bare`, `World.bare`: so walks and reading are such.
-/

namespace MacroMarkup

/-- The state of the macros was never set up, no modifier is registered under an empty name,
and no interpolator has an empty mark. -/
structure Context.Bare (cx : Context) : Prop where
  missing : cx.macros = .error .missingSlot
  named : cx.configuration.All fun d => d.name ≠ ""

abbrev missingOnly : Fault → Prop := fun fault => fault = .missingSlot

def Upkeep.bare : Upkeep where
  allows := missingOnly
  Holds := Context.Bare
  Keeps _ cx' := cx'.Bare
  refl h := h
  trans _ h := h
  holds h := h
  missing hcx hfault := by
    rw [hcx.missing] at hfault
    exact (Except.error.inj hfault).symm

/-- In a bare context the step fails for want of the state of the macros, or it leaves the
context bare and answers what satisfies `post`. -/
def Step.StaysBare {α : Type} (post : α → Prop) (step : Step α) : Prop :=
  step.Upholds .bare post

namespace Step.StaysBare

variable {α β : Type} {post : α → Prop} {post' : β → Prop}

theorem pure {a : α} (h : post a) : StaysBare post (pure a : Step α) := Step.Upholds.pure h

theorem bind {step : Step α} {next : α → Step β} (h : StaysBare post step)
    (g : ∀ a, post a → StaysBare post' (next a)) : StaysBare post' (step >>= next) :=
  Step.Upholds.bind h g

theorem ite {c : Prop} [Decidable c] {step other : Step α} (h : c → StaysBare post step)
    (g : ¬ c → StaysBare post other) : StaysBare post (if c then step else other) :=
  Step.Upholds.ite h g

theorem get {next : Context → Step α} (h : ∀ cx, StaysBare post (next cx)) :
    StaysBare post (get >>= next) := Step.Upholds.get h

theorem modify {f : Context → Context} {next : PUnit → Step α}
    (hf : ∀ cx : Context, cx.Bare → (f cx).Bare) (h : StaysBare post (next ⟨⟩)) :
    StaysBare post (modify f >>= next) :=
  Step.Upholds.bind (Step.Upholds.modify hf) fun _ _ => h

/-- Whatever comes behind it, a step that asks for the state of the macros fails. -/
theorem of_missing {step : Step α} {next : α → Step β}
    (h : ∀ cx : Context, cx.Bare → step cx = .error .missingSlot) :
    StaysBare post' (step >>= next) := by
  intro cx hcx
  rw [ensures_bind, Ensures, h cx hcx]
  rfl

theorem macros {next : MacroState → Step α} : StaysBare post (Step.macros >>= next) :=
  of_missing fun cx hcx => by simp only [Step.macros, hcx.missing, Bind.bind, Except.bind]

theorem resolve {name : String} {next : Resolution → Step α} :
    StaysBare post (Step.resolve name >>= next) :=
  of_missing fun cx hcx => by
    simp only [Step.resolve, Context.resolve, hcx.missing, Bind.bind, Except.bind]

theorem modifyMacros {f : MacroState → MacroState} {next : Unit → Step α} :
    StaysBare post (Step.modifyMacros f >>= next) :=
  of_missing fun cx hcx => by
    simp only [Step.modifyMacros, Context.modifyMacros, hcx.missing, Bind.bind, Except.bind]

end Step.StaysBare

/-! ### Lifecycles -/

/-- The points of the lifecycle leave a context bare, and keep to the states in `rest`. -/
structure Lifecycle.StaysBare (life : Lifecycle) (rest : life.State → Prop) : Prop where
  beforeContent : ∀ m immediate,
    Step.StaysBare (fun r => rest r.1) (life.beforeContent m immediate)
  afterContent : ∀ state, rest state → Step.StaysBare rest (life.afterContent state)
  prepare : ∀ m state immediate, rest state →
    Step.StaysBare (fun r => rest r.1) (life.prepare m state immediate)
  expand : ∀ m state immediate, rest state →
    Step.StaysBare (fun d => rest d.2) (life.expand m state immediate)
  beforeProcessing : ∀ m state, rest state →
    Step.StaysBare rest (life.beforeProcessing m state)
  afterProcessing : ∀ state, rest state →
    Step.StaysBare (fun _ => True) (life.afterProcessing state)

section Lifecycles

theorem staysBare_quiet {State : Type} {idle : State}
    {expand : Modifier → State → Bool → Outcome × State} :
    Lifecycle.StaysBare ⟨State, idle, fun _ _ => pure (idle, []), pure, fun _ state _ =>
      pure (state, []), fun m state immediate => pure (expand m state immediate),
      fun _ state => pure state, fun _ => pure ()⟩ anyState where
  beforeContent _ _ := .pure trivial
  afterContent _ _ := .pure trivial
  prepare _ _ _ _ := .pure trivial
  expand _ _ _ _ := .pure trivial
  beforeProcessing _ _ _ := .pure trivial
  afterProcessing _ _ := .pure trivial

theorem staysBare_assign : assignLifecycle.StaysBare anyState where
  beforeContent _ _ := .pure trivial
  afterContent _ _ := .pure trivial
  prepare m state immediate _ := by
    simp only [assignLifecycle]
    split
    · exact .pure trivial
    · split
      · exact .ite (fun _ => .pure trivial) fun _ => .pure trivial
      · exact .pure trivial
  expand m state immediate _ := by
    cases state with
    | none => exact .pure trivial
    | some binding => exact .modify (fun _ hcx => ⟨hcx.missing, hcx.named⟩) (.pure trivial)
  beforeProcessing _ _ _ := .pure trivial
  afterProcessing _ _ := .pure trivial

theorem staysBare_reference : referenceLifecycle.StaysBare anyState where
  beforeContent _ _ := .pure trivial
  afterContent _ _ := .pure trivial
  prepare m state immediate _ := by
    simp only [referenceLifecycle]
    split
    · exact .pure trivial
    · split
      · exact .ite (fun _ => .pure trivial) fun _ => .resolve
      · exact .pure trivial
  expand m state immediate _ := by
    cases state <;> exact .pure trivial
  beforeProcessing _ _ _ := .pure trivial
  afterProcessing _ _ := .pure trivial

theorem staysBare_conditional (expectDefined : Bool) :
    (conditionalLifecycle expectDefined).StaysBare anyState where
  beforeContent _ _ := .pure trivial
  afterContent _ _ := .pure trivial
  prepare m state immediate _ := by
    simp only [conditionalLifecycle]
    split
    · exact .pure trivial
    · split
      · exact .ite (fun _ => .pure trivial) fun _ => .resolve
      · exact .pure trivial
  expand m state immediate _ := by
    simp only [conditionalLifecycle]
    split <;> exact .pure trivial
  beforeProcessing _ _ _ := .pure trivial
  afterProcessing _ _ := .pure trivial

theorem staysBare_print : printLifecycle.StaysBare anyState where
  beforeContent _ _ := .pure trivial
  afterContent _ _ := .pure trivial
  prepare m state immediate _ := by
    simp only [printLifecycle]
    split <;> exact .pure trivial
  expand m state immediate _ := .ite (fun _ => .pure trivial) fun _ => .pure trivial
  beforeProcessing _ _ _ := .pure trivial
  afterProcessing _ _ := .pure trivial

theorem staysBare_pushNotation : pushNotationLifecycle.StaysBare anyState where
  beforeContent _ _ := .pure trivial
  afterContent _ _ := .pure trivial
  prepare _ _ _ _ := .pure trivial
  expand _ _ _ _ := .get fun _ => .modifyMacros
  beforeProcessing _ _ _ := .pure trivial
  afterProcessing _ _ := .pure trivial

theorem staysBare_popNotation : popNotationLifecycle.StaysBare anyState where
  beforeContent _ _ := .pure trivial
  afterContent _ _ := .pure trivial
  prepare _ _ _ _ := .macros
  expand _ _ _ _ := .pure trivial
  beforeProcessing _ _ _ := .pure trivial
  afterProcessing _ _ := .pure trivial

theorem staysBare_recordModule : moduleLifecycle.StaysBare anyState where
  beforeContent m immediate := by
    simp only [moduleLifecycle]
    refine .ite (fun _ => .pure trivial) fun _ => ?_
    split
    · exact .pure trivial
    split
    · exact .ite (fun _ => .pure trivial) fun _ => .macros
    · exact .pure trivial
  afterContent state _ := by
    cases state with
    | none => exact .pure trivial
    | some module => exact .get fun _ => .modifyMacros
  prepare _ _ _ _ := .pure trivial
  expand _ _ _ _ := .pure trivial
  beforeProcessing _ _ _ := .pure trivial
  afterProcessing _ _ := .pure trivial

theorem Step.StaysBare.findModule {m : Modifier} {immediate : Bool} :
    Step.StaysBare (fun found => ∀ record, found ≠ .ok record) (findModule m immediate) := by
  simp only [MacroMarkup.findModule]
  split
  · exact .pure fun _ h => by cases h
  split
  · exact .macros
  · exact .pure fun _ h => by cases h

theorem staysBare_useInside : useInsideLifecycle.StaysBare (· = none) where
  beforeContent m immediate := by
    refine .bind .findModule fun found hfound => ?_
    cases found with
    | error messages => exact .pure rfl
    | ok record => exact absurd rfl (hfound record)
  afterContent state hstate := by
    cases hstate
    exact .pure rfl
  prepare _ _ _ hstate := .pure hstate
  expand _ _ _ hstate := .pure hstate
  beforeProcessing _ _ hstate := .pure hstate
  afterProcessing _ _ := .pure trivial

theorem staysBare_useFromHere : useFromHereLifecycle.StaysBare (· = none) where
  beforeContent _ _ := .pure rfl
  afterContent _ hstate := .pure hstate
  prepare m state immediate hstate := by
    refine .bind .findModule fun found hfound => ?_
    cases found with
    | error messages => exact .pure hstate
    | ok record => exact absurd rfl (hfound record)
  expand m state immediate hstate := by
    cases hstate
    exact .pure rfl
  beforeProcessing _ _ hstate := .pure hstate
  afterProcessing _ _ := .pure trivial

theorem staysBare_define (kind : MacroKind) : (defineLifecycle kind).StaysBare anyState where
  beforeContent m immediate := by
    simp only [defineLifecycle]
    split
    · exact .pure trivial
    split
    · exact .modifyMacros
    · exact .pure trivial
  afterContent state _ := by
    cases state with
    | none => exact .pure trivial
    | some signature => exact .macros
  prepare m state immediate _ := by
    simp only [defineLifecycle]
    refine .ite (fun _ => .pure trivial) fun _ => ?_
    cases state with
    | none => exact .pure trivial
    | some signature =>
      refine .ite (fun _ => .pure trivial) fun _ => ?_
      cases kind <;> exact .get fun _ => .pure trivial
  expand m state immediate _ := by
    simp only [defineLifecycle]
    refine .ite (fun _ => .pure trivial) fun _ => ?_
    cases state with
    | none => exact .pure trivial
    | some signature =>
      refine .ite (fun hname => ?_) fun _ => .pure trivial
      have hnonempty : signature.name.getD "" ≠ "" := by
        intro hempty
        rw [hempty] at hname
        cases hname
      refine .modify (fun cx hcx => ⟨?_, hcx.named.set fun _ => hnonempty⟩) (.pure trivial)
      exact hcx.missing
  beforeProcessing _ _ _ := .pure trivial
  afterProcessing _ _ := .pure trivial

theorem staysBare_slot (kind : MacroKind) : (slotLifecycle kind).StaysBare anyState where
  beforeContent _ _ := .pure trivial
  afterContent _ _ := .pure trivial
  prepare m state immediate _ := by
    simp only [slotLifecycle]
    split
    · exact .pure trivial
    split
    · exact .macros
    · exact .ite (fun _ => .pure trivial) fun _ => .ite (fun _ => .pure trivial) fun _ => .macros
  expand m state immediate _ := by
    cases state with
    | «open» => exact .pure trivial
    | failed => exact .pure trivial
    | resolved outer detached => exact .macros
  beforeProcessing m state _ := by
    cases state with
    | «open» => exact .pure trivial
    | failed => exact .pure trivial
    | resolved outer detached => exact .macros
  afterProcessing state _ := by
    cases state with
    | «open» => exact .pure trivial
    | failed => exact .pure trivial
    | resolved outer detached => exact .macros

theorem staysBare_custom (kind : MacroKind) (name : String) (parameters : List String)
    (slotName : String) (body : List Node) :
    (customLifecycle kind name parameters slotName body).StaysBare anyState where
  beforeContent _ _ := .pure trivial
  afterContent _ _ := .pure trivial
  prepare m state immediate _ := by
    simp only [customLifecycle]
    split <;> exact .pure trivial
  expand m state immediate _ := .ite (fun _ => .pure trivial) fun _ => .pure trivial
  beforeProcessing m state _ := by
    cases state with
    | none => exact .pure trivial
    | some arguments => exact .modifyMacros
  afterProcessing state _ := .ite (fun _ => .macros) fun _ => .pure trivial

/-- The states that a behaviour keeps to in bare contexts: no module is ever at hand. -/
def Behaviour.Unaided : (b : Behaviour) → b.lifecycle.State → Prop
  | .useInside => fun state : Option Registries => state = none
  | .useFromHere => fun state : Option Registries => state = none
  | _ => anyState

/-- **Every lifecycle fails for want of the state of the macros or leaves a context bare.** -/
theorem staysBare (b : Behaviour) : b.lifecycle.StaysBare b.Unaided := by
  cases b with
  | plain => exact staysBare_quiet
  | unknown head => exact staysBare_quiet
  | raw => exact staysBare_quiet
  | define kind => exact staysBare_define kind
  | slot kind => exact staysBare_slot kind
  | print => exact staysBare_print
  | assign => exact staysBare_assign
  | reference => exact staysBare_reference
  | conditional expectDefined => exact staysBare_conditional expectDefined
  | pushNotation => exact staysBare_pushNotation
  | popNotation => exact staysBare_popNotation
  | recordModule => exact staysBare_recordModule
  | useInside => exact staysBare_useInside
  | useFromHere => exact staysBare_useFromHere
  | custom kind name parameters slotName body =>
    exact staysBare_custom kind name parameters slotName body

end Lifecycles

/-- In a bare context every lifecycle keeps to states without a module. -/
theorem upholds_bare (b : Behaviour) :
    b.lifecycle.Upholds .bare fun state _ => b.Unaided state where
  stays hstate _ := hstate
  beforeContent := (staysBare b).beforeContent
  afterContent state cx hcx hstate := (staysBare b).afterContent state hstate cx hcx
  prepare m state immediate cx hcx hstate := (staysBare b).prepare m state immediate hstate cx hcx
  expand m state immediate cx hcx hstate := (staysBare b).expand m state immediate hstate cx hcx
  processing m state _ hcx hstate :=
    ((staysBare b).beforeProcessing m state hstate).around (staysBare b).afterProcessing hcx

/-- The names and marks of a bare context may be looked for. -/
theorem Context.Bare.readable {cx : Context} (h : cx.Bare) :
    cx.Readable missingOnly fun _ => True := by
  have hnamed : ∀ d : Definition, d.name ≠ "" →
      (d.name = "" → missingOnly .emptyLiteral) ∧ True :=
    fun d hd => ⟨fun hempty => absurd hempty hd, trivial⟩
  refine ⟨fun kind => ?_, fun _ _ => trivial, ?_, fun fault => Upkeep.bare.missing h⟩
  · cases kind with
    | block => exact h.named.blocks.mono hnamed
    | inline => exact h.named.inlines.mono hnamed
    | system => exact h.named.systems.mono hnamed
  · exact h.named.interpolators.mono fun i hi =>
      ⟨fun hempty => absurd hempty hi.1, fun hempty => absurd hempty hi.2⟩

def World.bare : World := Upkeep.bare.world upholds_bare Context.Bare.readable

end MacroMarkup
