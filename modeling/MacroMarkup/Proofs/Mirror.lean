import MacroMarkup.Proofs.Placeless
import MacroMarkup.Proofs.Run

/-!
# No behaviour looks at places

A program mirrors another one if from a state without places it does without places what the
other one does.  This is shown of every behaviour, one lifecycle after the other; what a behaviour
reports is never about the layout of the source.

* `Mirrors`: two programs that end alike from related states.
* `Forgets`, `Reported`: the relations for results and for messages.
* `Lifecycle.Mirrors`: the same of all that a behaviour does.
* `mirrors`: **no behaviour looks at places.**
-/

namespace MacroMarkup

open Placed (placeless)

section Law

variable {σ α β γ δ : Type} {T : σ → σ → Prop} {R : α → β → Prop} {R' : γ → δ → Prop}

/-- Two runs end alike: with related results in related states, or with the same fault.  Only
the first one may meet a reversed span. -/
inductive EndsAlike (T : σ → σ → Prop) (R : α → β → Prop) :
    Except Fault (α × σ) → Except Fault (β × σ) → Prop
  | ok {a : α} {b : β} {s t : σ} : R a b → T s t → EndsAlike T R (.ok (a, s)) (.ok (b, t))
  | error (fault : Fault) : EndsAlike T R (.error fault) (.error fault)
  | reversed (result : Except Fault (β × σ)) : EndsAlike T R (.error .reversedSpan) result

/-- From related states the two programs end alike. -/
def Mirrors (T : σ → σ → Prop) (R : α → β → Prop) (x : StateT σ (Except Fault) α)
    (y : StateT σ (Except Fault) β) : Prop :=
  ∀ s t, T s t → EndsAlike T R (x s) (y t)

namespace Mirrors

theorem pure {a : α} {b : β} (h : R a b) : Mirrors T R (pure a) (pure b) :=
  fun _ _ hst => .ok h hst

theorem throw (fault : Fault) : Mirrors T R (throw fault) (throw fault) :=
  fun _ _ _ => .error fault

theorem bind {x : StateT σ (Except Fault) α} {y : StateT σ (Except Fault) β}
    {f : α → StateT σ (Except Fault) γ} {g : β → StateT σ (Except Fault) δ}
    (hxy : Mirrors T R x y) (hfg : ∀ a b, R a b → Mirrors T R' (f a) (g b)) :
    Mirrors T R' (x >>= f) (y >>= g) := by
  intro s t hst
  simp only [Bind.bind, StateT.bind, Except.bind]
  have h := hxy s t hst
  generalize x s = left at h
  generalize y t = right at h
  cases h with
  | ok hab hst' => exact hfg _ _ hab _ _ hst'
  | error fault => exact .error fault
  | reversed result => exact .reversed _

theorem ite {c c' : Prop} [Decidable c] [Decidable c'] {x x' : StateT σ (Except Fault) α}
    {y y' : StateT σ (Except Fault) β} (hc : c ↔ c') (ht : c → Mirrors T R x y)
    (he : ¬ c → Mirrors T R x' y') :
    Mirrors T R (if c then x else x') (if c' then y else y') := by
  by_cases h : c
  · rw [if_pos h, if_pos (hc.mp h)]
    exact ht h
  · rw [if_neg h, if_neg fun h' => h (hc.mpr h')]
    exact he h

theorem get : Mirrors T T (get : StateT σ (Except Fault) σ) (MonadState.get) :=
  fun _ _ hst => .ok hst hst

theorem modify {f g : σ → σ} (h : ∀ s t, T s t → T (f s) (g t)) :
    Mirrors T Eq (modify f : StateT σ (Except Fault) PUnit) (modify g) :=
  fun s t hst => .ok rfl (h s t hst)

end Mirrors

end Law

abbrev Forgets {α : Type} [Placed α] (a b : α) : Prop := b = placeless a

/-! ### Messages -/

/-- The problem is about how blocks are laid out in lines. -/
def Problem.isLayout : Problem → Bool
  | .redundantNewlines => true
  | .blockInsideLine => true
  | .groupContentInsideLine => true
  | _ => false

def Message.isLayout (message : Message) : Bool :=
  message.severity == .warning && [1, 2, 3].contains message.code

@[simp] theorem isLayout_message (problem : Problem) (span : Span) :
    (problem.message span).isLayout = problem.isLayout := by
  cases problem <;> rfl

theorem isLayout_foldl_referred (spans : List Span) (message : Message) :
    (spans.foldl Message.referred message).isLayout = message.isLayout := by
  induction spans generalizing message with
  | nil => rfl
  | cons span outer ih => exact ih (message.referred span)

/-- Messages of which none is about the layout, and the same without places. -/
structure Reported (messages messages' : List Message) : Prop where
  same : messages' = placeless messages
  content : ∀ message ∈ messages, message.isLayout = false

theorem Reported.nil : Reported [] [] := ⟨rfl, nofun⟩

theorem Reported.append {as as' bs bs' : List Message} (ha : Reported as as')
    (hb : Reported bs bs') : Reported (as ++ bs) (as' ++ bs') where
  same := by rw [ha.same, hb.same, placeless_append]
  content message h := (List.mem_append.mp h).elim (ha.content message) (hb.content message)

theorem Reported.single {message message' : Message} (h : message' = placeless message)
    (hcontent : message.isLayout = false) : Reported [message] [message'] where
  same := by rw [h]; rfl
  content _ hmem := by rw [List.mem_singleton.mp hmem, hcontent]

theorem Reported.problem {problem : Problem} {span : Span} (h : problem.isLayout = false) :
    Reported [problem.message span] [problem.message (placeless span)] :=
  .single (placeless_message _ _).symm (by rw [isLayout_message, h])

theorem Reported.ite {c : Prop} [Decidable c] {as as' bs bs' : List Message}
    (ha : Reported as as') (hb : Reported bs bs') :
    Reported (if c then as else bs) (if c then as' else bs') := by
  split
  · exact ha
  · exact hb

/-! ### Steps -/

section Steps

variable {α β : Type} {R : α → β → Prop}

abbrev Step.Mirrors (R : α → β → Prop) (x : Step α) (y : Step β) : Prop :=
  @MacroMarkup.Mirrors Context α β Forgets R x y

theorem macros_placeless (cx : Context) :
    (placeless cx).macros = cx.macros.map placeless := by
  obtain ⟨configuration, bindings, ⟨⟨macros⟩, counter, label⟩, revision⟩ := cx
  cases macros <;> rfl

theorem Mirrors.macros : Step.Mirrors Forgets Step.macros Step.macros := by
  rintro cx _ rfl
  simp only [Step.macros, macros_placeless]
  cases cx.macros with
  | ok s => exact .ok rfl rfl
  | error fault => exact .error fault

theorem Mirrors.modifyMacros {f g : MacroState → MacroState}
    (h : ∀ s, g (placeless s) = placeless (f s)) :
    Step.Mirrors Eq (Step.modifyMacros f) (Step.modifyMacros g) := by
  rintro ⟨configuration, bindings, ⟨⟨macros⟩, counter, label⟩, revision⟩ _ rfl
  cases macros with
  | none => exact .error .missingSlot
  | some s =>
    exact .ok rfl (congrArg (fun s => (⟨placeless configuration, bindings,
      ⟨⟨some s⟩, counter, label⟩, revision⟩ : Context)) (h s))

theorem isPending_placeless (s : MacroState) (name : String) :
    Context.isPending (placeless s) name = Context.isPending s name := rfl

theorem findArgument?_placeless (name : String) (frames : List Frame) :
    Frame.findArgument? name (placeless frames) = Frame.findArgument? name frames := by
  show (frames.map placeless).findSome? _ = _
  rw [List.findSome?_map]
  rfl

theorem resolve_placeless (cx : Context) (name : String) :
    (placeless cx).resolve name = cx.resolve name := by
  have hbinding : ∀ s, (placeless cx).binding? (placeless s) name = cx.binding? s name := by
    intro s
    have hframes : (placeless s).inlineFrames ++ (placeless s).blockFrames
        = placeless (s.inlineFrames ++ s.blockFrames) := (placeless_append _ _).symm
    rw [Context.binding?, hframes, findArgument?_placeless]
    rfl
  simp only [Context.resolve, macros_placeless]
  cases cx.macros with
  | error fault => rfl
  | ok s =>
    simp only [Except.map, isPending_placeless, hbinding, bind, Except.bind]

theorem Mirrors.resolve {name : String} :
    Step.Mirrors Eq (Step.resolve name) (Step.resolve name) := by
  rintro cx _ rfl
  simp only [Step.resolve, resolve_placeless]
  cases cx.resolve name with
  | ok found => exact .ok rfl rfl
  | error fault => exact .error fault

theorem Mirrors.restore (r : Registries) :
    Step.Mirrors Eq (Step.restore r) (Step.restore (placeless r)) := by
  refine .modify ?_
  rintro cx _ rfl
  rfl

end Steps

/-! ### Behaviours -/

@[simp] theorem value_placeless (a : Argument) : (placeless a).value = a.value := by
  obtain ⟨span, content, value⟩ := a
  rfl

@[simp] theorem text_placeless (a : Argument) : (placeless a).text = a.text := by
  rw [Argument.text, value_placeless, Argument.text]

theorem checkCount?_placeless (m : Modifier) (least : Nat) (most : Option Nat) :
    checkCount? (placeless m) least most = placeless (checkCount? m least most) := by
  have hcount : (placeless m).arguments.length = m.arguments.length := List.length_map _
  simp only [checkCount?, hcount]
  split
  · exact congrArg some (placeless_message _ _).symm
  · cases most with
    | none => rfl
    | some limit =>
      simp only
      split
      · exact congrArg some (placeless_message _ _).symm
      · rfl

theorem checkArguments?_placeless (m : Modifier) (least : Nat) (most : Option Nat) :
    checkArguments? (placeless m) least most = placeless (checkArguments? m least most) := by
  have hfind : (placeless m).arguments.find? (·.value.isNone)
      = placeless (m.arguments.find? (·.value.isNone)) := by
    show (m.arguments.map placeless).find? _ = (m.arguments.find? _).map placeless
    rw [List.find?_map]
    simp only [Function.comp_def, value_placeless]
  rw [checkArguments?, hfind, checkArguments?]
  cases m.arguments.find? (·.value.isNone) with
  | none => exact checkCount?_placeless m least most
  | some a =>
    obtain ⟨span, content, value⟩ := a
    exact congrArg some (placeless_message _ _).symm

theorem isLayout_checkCount? {m : Modifier} {least : Nat} {most : Option Nat} {message : Message}
    (h : checkCount? m least most = some message) : message.isLayout = false := by
  simp only [checkCount?] at h
  split at h
  · cases h
    rfl
  · split at h
    · cases h
    · split at h
      · cases h
        rfl
      · cases h

theorem isLayout_checkArguments? {m : Modifier} {least : Nat} {most : Option Nat}
    {message : Message} (h : checkArguments? m least most = some message) :
    message.isLayout = false := by
  unfold checkArguments? at h
  split at h
  · cases h
    rfl
  · exact isLayout_checkCount? h

def With {α β : Type} (R : α → β → Prop) (r : α × List Message) (r' : β × List Message) : Prop :=
  R r.1 r'.1 ∧ Reported r.2 r'.2

def Decided {α β : Type} (R : α → β → Prop) (d : Outcome × α) (d' : Outcome × β) : Prop :=
  d'.1 = (match d.1 with
    | .keep => .keep
    | .defer => .defer
    | .replace nodes => .replace (placeless nodes)) ∧ R d.2 d'.2

/-- The second lifecycle does without places what the first one does; `R` relates what they
remember. -/
structure Lifecycle.Mirrors (life life' : Lifecycle) (R : life.State → life'.State → Prop) :
    Prop where
  beforeContent : ∀ m immediate, Step.Mirrors (With R) (life.beforeContent m immediate)
    (life'.beforeContent (placeless m) immediate)
  afterContent : ∀ s s', R s s' → Step.Mirrors R (life.afterContent s) (life'.afterContent s')
  prepare : ∀ m s s' immediate, R s s' → Step.Mirrors (With R) (life.prepare m s immediate)
    (life'.prepare (placeless m) s' immediate)
  expand : ∀ m s s' immediate, R s s' → Step.Mirrors (Decided R) (life.expand m s immediate)
    (life'.expand (placeless m) s' immediate)
  beforeProcessing : ∀ m s s', R s s' →
    Step.Mirrors R (life.beforeProcessing m s) (life'.beforeProcessing (placeless m) s')
  afterProcessing : ∀ s s', R s s' →
    Step.Mirrors Eq (life.afterProcessing s) (life'.afterProcessing s')

section Behaviours

theorem mirrors_plain : plainLifecycle.Mirrors plainLifecycle fun _ _ => True where
  beforeContent _ _ := .pure ⟨trivial, .nil⟩
  afterContent _ _ _ := .pure trivial
  prepare _ _ _ _ _ := .pure ⟨trivial, .nil⟩
  expand _ _ _ _ _ := .pure ⟨rfl, trivial⟩
  beforeProcessing _ _ _ _ := .pure trivial
  afterProcessing _ _ _ := .pure rfl

theorem mirrors_raw : rawLifecycle.Mirrors rawLifecycle fun _ _ => True where
  beforeContent _ _ := .pure ⟨trivial, .nil⟩
  afterContent _ _ _ := .pure trivial
  prepare _ _ _ _ _ := .pure ⟨trivial, .nil⟩
  expand _ _ _ _ _ := .pure ⟨rfl, trivial⟩
  beforeProcessing _ _ _ _ := .pure trivial
  afterProcessing _ _ _ := .pure rfl

theorem mirrors_unknown (head : String) :
    (unknownLifecycle head).Mirrors (unknownLifecycle head) fun _ _ => True where
  beforeContent _ _ := .pure ⟨trivial, .nil⟩
  afterContent _ _ _ := .pure trivial
  prepare _ _ _ _ _ := .pure ⟨trivial, .nil⟩
  expand m _ _ _ _ := by
    refine .pure ⟨?_, trivial⟩
    have hkind : (placeless m).definition.kind = m.definition.kind := rfl
    simp only [hkind]
    split <;> rfl
  beforeProcessing _ _ _ _ := .pure trivial
  afterProcessing _ _ _ := .pure rfl

theorem mirrors_assign : assignLifecycle.Mirrors assignLifecycle Eq where
  beforeContent _ _ := .pure ⟨rfl, .nil⟩
  afterContent _ _ h := .pure h
  prepare m _ _ _ _ := by
    simp only [assignLifecycle, checkArguments?_placeless]
    cases hproblem : checkArguments? m 2 (some 2) with
    | some problem => exact .pure ⟨rfl, .single rfl (isLayout_checkArguments? hproblem)⟩
    | none =>
      obtain ⟨span, head, definition, arguments, content, expansion⟩ := m
      rcases arguments with _ | ⟨name, _ | ⟨value, rest⟩⟩
      · exact .pure ⟨rfl, .nil⟩
      · exact .pure ⟨rfl, .nil⟩
      · obtain ⟨_, _, name⟩ := name
        obtain ⟨_, _, value⟩ := value
        exact .ite .rfl (fun _ => .pure ⟨rfl, .problem rfl⟩) fun _ => .pure ⟨rfl, .nil⟩
  expand m s s' immediate h := by
    subst h
    cases s with
    | none => exact .pure ⟨rfl, rfl⟩
    | some binding =>
      refine .bind (.modify ?_) fun _ _ _ => .pure ⟨rfl, rfl⟩
      rintro cx _ rfl
      rfl
  beforeProcessing _ _ _ h := .pure h
  afterProcessing _ _ _ := .pure rfl

theorem mirrors_reference : referenceLifecycle.Mirrors referenceLifecycle Eq where
  beforeContent _ _ := .pure ⟨rfl, .nil⟩
  afterContent _ _ h := .pure h
  prepare m s s' immediate h := by
    subst h
    have hquiet : ∀ problem : Problem, ∀ span, problem.isLayout = false →
        Reported (if immediate = true then [problem.message span] else [])
          (if immediate = true then [problem.message (placeless span)] else []) :=
      fun _ _ hproblem => .ite (.problem hproblem) .nil
    simp only [referenceLifecycle, checkArguments?_placeless]
    cases hproblem : checkArguments? m 1 (some 1) with
    | some problem =>
      exact .pure ⟨rfl, .ite (.single rfl (isLayout_checkArguments? hproblem)) .nil⟩
    | none =>
      obtain ⟨span, head, definition, arguments, content, expansion⟩ := m
      cases arguments with
      | nil => exact .pure ⟨rfl, .nil⟩
      | cons name rest =>
        obtain ⟨_, _, name⟩ := name
        refine .ite .rfl (fun _ => .pure ⟨rfl, hquiet _ _ rfl⟩) fun _ => ?_
        refine .bind Mirrors.resolve fun found _ hfound => ?_
        subst hfound
        cases found with
        | value text => exact .pure ⟨rfl, .nil⟩
        | undefined => exact .pure ⟨rfl, hquiet _ _ rfl⟩
        | deferred => exact .pure ⟨rfl, hquiet _ _ rfl⟩
  expand m s s' immediate h := by
    subst h
    cases s with
    | none =>
      refine .pure ⟨?_, rfl⟩
      cases immediate <;> rfl
    | some text => exact .pure ⟨rfl, rfl⟩
  beforeProcessing _ _ _ h := .pure h
  afterProcessing _ _ _ := .pure rfl

theorem mirrors_conditional (expectDefined : Bool) :
    (conditionalLifecycle expectDefined).Mirrors (conditionalLifecycle expectDefined) Eq where
  beforeContent _ _ := .pure ⟨rfl, .nil⟩
  afterContent _ _ h := .pure h
  prepare m s s' immediate h := by
    subst h
    simp only [conditionalLifecycle, checkArguments?_placeless]
    cases hproblem : checkArguments? m 1 (some 1) with
    | some problem => exact .pure ⟨rfl, .single rfl (isLayout_checkArguments? hproblem)⟩
    | none =>
      obtain ⟨span, head, definition, arguments, content, expansion⟩ := m
      cases arguments with
      | nil => exact .pure ⟨rfl, .nil⟩
      | cons name rest =>
        obtain ⟨_, _, name⟩ := name
        refine .ite .rfl (fun _ => .pure ⟨rfl, .problem rfl⟩) fun _ => ?_
        refine .bind Mirrors.resolve fun found _ hfound => ?_
        subst hfound
        cases found <;> exact .pure ⟨rfl, .nil⟩
  expand m (s : Option Bool) (s' : Option Bool) immediate h := by
    subst h
    exact .ite .rfl (fun _ => .pure ⟨rfl, rfl⟩) fun _ => .pure ⟨rfl, rfl⟩
  beforeProcessing _ _ _ h := .pure h
  afterProcessing _ _ _ := .pure rfl

theorem mirrors_print : printLifecycle.Mirrors printLifecycle Eq where
  beforeContent _ _ := .pure ⟨rfl, .nil⟩
  afterContent _ _ h := .pure h
  prepare m s s' immediate h := by
    subst h
    have hvalues : (placeless m).arguments.map (·.text) = m.arguments.map (·.text) := by
      show (m.arguments.map placeless).map _ = _
      simp only [List.map_map, Function.comp_def, text_placeless]
    simp only [printLifecycle, checkArguments?_placeless, hvalues]
    cases hproblem : checkArguments? m 0 none with
    | some problem => exact .pure ⟨rfl, .single rfl (isLayout_checkArguments? hproblem)⟩
    | none => exact .pure ⟨rfl, .nil⟩
  expand m s s' immediate h := by
    subst h
    exact .ite .rfl (fun _ => .pure ⟨rfl, rfl⟩) fun _ => .pure ⟨rfl, rfl⟩
  beforeProcessing _ _ _ h := .pure h
  afterProcessing _ _ _ := .pure rfl

theorem mirrors_pushNotation :
    pushNotationLifecycle.Mirrors pushNotationLifecycle fun _ _ => True where
  beforeContent _ _ := .pure ⟨trivial, .nil⟩
  afterContent _ _ _ := .pure trivial
  prepare _ _ _ _ _ := .pure ⟨trivial, .nil⟩
  expand _ _ _ _ _ := by
    refine .bind .get fun cx _ hcx => ?_
    subst hcx
    exact .bind (.modifyMacros fun _ => rfl) fun _ _ _ => .pure ⟨rfl, trivial⟩
  beforeProcessing _ _ _ _ := .pure trivial
  afterProcessing _ _ _ := .pure rfl

theorem mirrors_popNotation :
    popNotationLifecycle.Mirrors popNotationLifecycle fun _ _ => True where
  beforeContent _ _ := .pure ⟨trivial, .nil⟩
  afterContent _ _ _ := .pure trivial
  prepare m s s' immediate h := by
    refine .bind Mirrors.macros fun macros _ hmacros => ?_
    subst hmacros
    obtain ⟨blockDelayed, inlineDelayed, blockFrames, inlineFrames, notations, modules,
      insideModule⟩ := macros
    cases notations with
    | nil => exact .pure ⟨trivial, .problem rfl⟩
    | cons kept earlier =>
      refine .bind (.modifyMacros fun _ => rfl) fun _ _ _ => ?_
      exact .bind (.restore kept) fun _ _ _ => .pure ⟨trivial, .nil⟩
  expand _ _ _ _ _ := .pure ⟨rfl, trivial⟩
  beforeProcessing _ _ _ _ := .pure trivial
  afterProcessing _ _ _ := .pure rfl

theorem reported_clashMessages (m : Modifier) (clashes : List String) :
    Reported (clashMessages m clashes) (clashMessages (placeless m) clashes) :=
  .ite .nil (.problem rfl)

theorem registries_placeless (cx : Context) :
    (placeless cx).registries = placeless cx.registries := rfl

theorem mirrors_beforeContent_recordModule (m : Modifier) (immediate : Bool) :
    Step.Mirrors (With (@Forgets (Option (String × Registries)) _))
      (moduleLifecycle.beforeContent m immediate)
      (moduleLifecycle.beforeContent (placeless m) immediate) := by
  simp only [moduleLifecycle, checkArguments?_placeless]
  refine .ite .rfl (fun _ => .pure ⟨rfl, .nil⟩) fun _ => ?_
  cases hproblem : checkArguments? m 1 (some 1) with
  | some problem => exact .pure ⟨rfl, .single rfl (isLayout_checkArguments? hproblem)⟩
  | none =>
    obtain ⟨span, head, definition, arguments, content, expansion⟩ := m
    cases arguments with
    | nil => exact .pure ⟨rfl, .nil⟩
    | cons argument rest =>
      obtain ⟨place, entities, value⟩ := argument
      let name : String := Argument.text ⟨place, entities, value⟩
      refine .ite .rfl (fun _ => .pure ⟨rfl, .problem rfl⟩) fun _ => ?_
      refine .bind Mirrors.macros fun macros _ hmacros => ?_
      subst hmacros
      refine .ite .rfl (fun _ => .pure ⟨rfl, .problem rfl⟩) fun _ => ?_
      refine .bind .get fun cx _ hcx => ?_
      subst hcx
      have hget : (placeless macros).modules.get?
          (placeless (⟨place, entities, value⟩ : Argument)).text
            = placeless (macros.modules.get? (Argument.text ⟨place, entities, value⟩)) :=
        Dict.get?_placeless _ _
      simp only [registries_placeless]
      rw [hget]
      have hopens : ∀ messages messages', Reported messages messages' →
          Step.Mirrors (With (@Forgets (Option (String × Registries)) _))
            (do
              Step.modifyMacros fun s => { s with insideModule := some name }
              Pure.pure (some (name, cx.registries), messages))
            (do
              Step.modifyMacros fun s => { s with insideModule := some name }
              Pure.pure (some (name, placeless cx.registries), messages')) :=
        fun _ _ h => .bind (.modifyMacros fun _ => rfl) fun _ _ _ => .pure ⟨rfl, h⟩
      cases macros.modules.get? (Argument.text ⟨place, entities, value⟩) with
      | none => exact .bind (.pure .nil) hopens
      | some record =>
        simp only [placeless_some, Registries.merge_placeless]
        refine .bind (.restore _) fun _ _ _ => ?_
        exact .bind (.pure (reported_clashMessages _ _)) hopens

theorem mirrors_recordModule : moduleLifecycle.Mirrors moduleLifecycle
    (@Forgets (Option (String × Registries)) _) where
  beforeContent := mirrors_beforeContent_recordModule
  afterContent s s' h := by
    subst h
    cases s with
    | none => exact .pure rfl
    | some module =>
      obtain ⟨name, outer⟩ := module
      refine .bind .get fun cx _ hcx => ?_
      subst hcx
      refine .bind (.modifyMacros fun s => ?_) fun _ _ _ => ?_
      · have hdefined : (placeless cx.registries).addedSince (placeless outer)
            = placeless (cx.registries.addedSince outer) :=
          Registries.addedSince_placeless _ _
        show MacroState.mk _ _ _ _ _ ((placeless s.modules).set name
          ((placeless cx.registries).addedSince (placeless outer))) _ = _
        rw [hdefined, Dict.set_placeless]
        rfl
      · exact .bind (.restore outer) fun _ _ _ => .pure rfl
  prepare _ _ _ _ h := .pure ⟨h, .nil⟩
  expand _ _ _ _ h := .pure ⟨rfl, h⟩
  beforeProcessing _ _ _ h := .pure h
  afterProcessing _ _ _ := .pure rfl

inductive FoundAlike : Except (List Message) ModuleRecord →
    Except (List Message) ModuleRecord → Prop
  | ok (record : ModuleRecord) : FoundAlike (.ok record) (.ok (placeless record))
  | error {messages messages' : List Message} : Reported messages messages' →
    FoundAlike (.error messages) (.error messages')

theorem Mirrors.findModule (m : Modifier) (immediate : Bool) :
    Step.Mirrors FoundAlike (findModule m immediate) (findModule (placeless m) immediate) := by
  have hquiet : ∀ message message' : Message, Reported [message] [message'] →
      FoundAlike (.error (if immediate = true then [message] else []))
        (.error (if immediate = true then [message'] else [])) :=
    fun _ _ h => .error (.ite h .nil)
  simp only [MacroMarkup.findModule, checkArguments?_placeless]
  cases hproblem : checkArguments? m 1 (some 1) with
  | some problem =>
    exact .pure (hquiet _ _ (.single rfl (isLayout_checkArguments? hproblem)))
  | none =>
    obtain ⟨span, head, definition, arguments, content, expansion⟩ := m
    cases arguments with
    | nil => exact .pure (.error .nil)
    | cons argument rest =>
      obtain ⟨place, entities, value⟩ := argument
      refine .bind Mirrors.macros fun macros _ hmacros => ?_
      subst hmacros
      have hget : (placeless macros).modules.get?
          (placeless (⟨place, entities, value⟩ : Argument)).text
            = placeless (macros.modules.get? (Argument.text ⟨place, entities, value⟩)) :=
        Dict.get?_placeless _ _
      rw [hget]
      cases macros.modules.get? (Argument.text ⟨place, entities, value⟩) with
      | none => exact .pure (hquiet _ _ (.problem rfl))
      | some record =>
        exact .ite .rfl (fun _ => .pure (hquiet _ _ (.problem rfl))) fun _ => .pure (.ok record)

theorem mirrors_useInside : useInsideLifecycle.Mirrors useInsideLifecycle
    (@Forgets (Option Registries) _) where
  beforeContent m immediate := by
    refine .bind (.findModule m immediate) fun found found' hfound => ?_
    cases hfound with
    | error h => exact .pure ⟨rfl, h⟩
    | ok record =>
      refine .bind .get fun cx _ hcx => ?_
      subst hcx
      simp only [registries_placeless, Registries.merge_placeless]
      refine .bind (.restore _) fun _ _ _ => .pure ⟨rfl, .ite ?_ .nil⟩
      exact reported_clashMessages m _
  afterContent s s' h := by
    subst h
    cases s with
    | none => exact .pure rfl
    | some outer => exact .bind (.restore outer) fun _ _ _ => .pure rfl
  prepare _ _ _ _ h := .pure ⟨h, .nil⟩
  expand _ _ _ _ h := .pure ⟨rfl, h⟩
  beforeProcessing _ _ _ h := .pure h
  afterProcessing _ _ _ := .pure rfl

theorem mirrors_useFromHere : useFromHereLifecycle.Mirrors useFromHereLifecycle
    (@Forgets (Option Registries) _) where
  beforeContent _ _ := .pure ⟨rfl, .nil⟩
  afterContent _ _ h := .pure h
  prepare m s s' immediate h := by
    refine .bind (.findModule m immediate) fun found found' hfound => ?_
    cases hfound with
    | error hmessages => exact .pure ⟨h, hmessages⟩
    | ok record =>
      refine .bind .get fun cx _ hcx => ?_
      subst hcx
      simp only [registries_placeless, Registries.merge_placeless]
      exact .pure ⟨rfl, reported_clashMessages m _⟩
  expand m s s' immediate h := by
    subst h
    cases s with
    | none => exact .pure ⟨rfl, rfl⟩
    | some merged => exact .bind (.restore merged) fun _ _ _ => .pure ⟨rfl, rfl⟩
  beforeProcessing _ _ _ h := .pure h
  afterProcessing _ _ _ := .pure rfl

structure Signature.Mirror (s s' : Signature) : Prop where
  name : s'.name = s.name
  slotName : s'.slotName = s.slotName
  parameters : s'.parameters = s.parameters
  pending : Reported s.pending s'.pending
  body : s'.body = placeless s.body

theorem Signature.mirror_ofArguments (name : Argument) (others : List Argument) :
    (Signature.ofArguments name others).Mirror
      (Signature.ofArguments (placeless name) (placeless others)) := by
  have hlast : (placeless others).getLast? = placeless others.getLast? := List.getLast?_map
  have hslot : (slotOf others).1 = (slotOf (placeless others)).1 ∧
      Reported (slotOf others).2 (slotOf (placeless others)).2 := by
    simp only [slotOf, hlast]
    cases others.getLast? with
    | none => exact ⟨rfl, .nil⟩
    | some last =>
      obtain ⟨span, content, value⟩ := last
      cases value with
      | none => exact ⟨rfl, .problem rfl⟩
      | some value => exact ⟨rfl, .nil⟩
  have hunresolved : ∀ arguments : List Argument, Reported
      ((arguments.filter (·.value.isNone)).map fun argument =>
        (Problem.invalidArgument none).message argument.span)
      (((placeless arguments).filter (·.value.isNone)).map fun argument =>
        (Problem.invalidArgument none).message argument.span) := by
    intro arguments
    induction arguments with
    | nil => exact .nil
    | cons a rest ih =>
      obtain ⟨span, content, value⟩ := a
      cases value with
      | none => exact .append (.problem rfl) ih
      | some value => exact ih
  have htexts : ∀ arguments : List Argument,
      (placeless arguments).map (·.text) = arguments.map (·.text) := by
    intro arguments
    show (arguments.map placeless).map _ = _
    simp only [List.map_map, Function.comp_def, text_placeless]
  have hparameters : ∀ slotName : String,
      (if slotName.isEmpty then placeless others else (placeless others).dropLast)
        = placeless (if slotName.isEmpty then others else others.dropLast) := by
    intro slotName
    split
    · rfl
    · exact List.map_dropLast.symm
  refine ⟨value_placeless name, hslot.1.symm, ?_, ?_, rfl⟩
  · simp only [Signature.ofArguments, ← hslot.1, hparameters, htexts]
  · simp only [Signature.ofArguments, ← hslot.1, hparameters]
    exact .append hslot.2 (hunresolved _)

theorem flattenInline_placeless (nodes : List Node) : ∀ afterParagraph : Bool,
    (flattenInline afterParagraph (placeless nodes)).1
        = placeless (flattenInline afterParagraph nodes).1 ∧
      Reported (flattenInline afterParagraph nodes).2
        (flattenInline afterParagraph (placeless nodes)).2 := by
  induction nodes with
  | nil => exact fun _ => ⟨rfl, .nil⟩
  | cons node rest ih =>
    intro afterParagraph
    have hrefused : ∀ span span' : Span, span' = placeless span →
        Reported (Problem.invalidInlineBody.message span :: (flattenInline afterParagraph rest).2)
          (Problem.invalidInlineBody.message span'
            :: (flattenInline afterParagraph (placeless rest)).2) := by
      rintro span _ rfl
      exact .append (.problem rfl) (ih afterParagraph).2
    cases node with
    | paragraph span content =>
      rw [placeless_cons, placeless_paragraph]
      cases afterParagraph with
      | true => exact ⟨(ih true).1, hrefused _ _ rfl⟩
      | false =>
        refine ⟨?_, (ih true).2⟩
        simp only [flattenInline, Bool.false_eq_true, if_false, (ih true).1, placeless_append]
    | modifier m =>
      rw [placeless_cons, placeless_modifier]
      have hkind : (placeless m).definition.kind = m.definition.kind := rfl
      simp only [flattenInline, hkind]
      split
      · exact ⟨by rw [(ih false).1, placeless_cons, placeless_modifier], (ih false).2⟩
      · exact ⟨(ih afterParagraph).1, hrefused _ _ rfl⟩
    | text span content => exact ⟨(ih afterParagraph).1, hrefused _ _ rfl⟩
    | escaped span content => exact ⟨(ih afterParagraph).1, hrefused _ _ rfl⟩
    | preformatted span contentSpan text => exact ⟨(ih afterParagraph).1, hrefused _ _ rfl⟩

inductive SignatureAlike : Option Signature → Option Signature → Prop
  | none : SignatureAlike none none
  | some {s s' : Signature} : s.Mirror s' → SignatureAlike (some s) (some s')

theorem custom_placeless (kind : MacroKind) (name : String) (parameters : List String)
    (slotName : String) (body : List Node) :
    placeless (Definition.custom kind name parameters slotName body)
      = Definition.custom kind name parameters slotName (placeless body) :=
  congrArg (fun body => Definition.custom kind name parameters slotName body)
    (placelessNodes_eq body)

theorem reported_atName (m : Modifier) {problem : Problem} (h : problem.isLayout = false) :
    Reported
      [problem.message (match m.arguments with
        | name :: _ => name.span
        | [] => m.head)]
      [problem.message (match (placeless m).arguments with
        | name :: _ => name.span
        | [] => (placeless m).head)] := by
  obtain ⟨span, head, definition, arguments, content, expansion⟩ := m
  cases arguments with
  | nil => exact .problem h
  | cons name others =>
    obtain ⟨place, entities, value⟩ := name
    exact .problem h

theorem mirrors_prepare_define (kind : MacroKind) (m : Modifier) {s s' : Option Signature}
    (immediate : Bool) (h : SignatureAlike s s') : Step.Mirrors (With SignatureAlike)
      ((defineLifecycle kind).prepare m s immediate)
      ((defineLifecycle kind).prepare (placeless m) s' immediate) := by
  refine .ite .rfl (fun _ => .pure ⟨h, .nil⟩) fun _ => ?_
  cases h with
  | none => exact .pure ⟨.none, .nil⟩
  | @some s s' hsame =>
    have hname : s'.name.getD "" = s.name.getD "" := by rw [hsame.name]
    have hdone : Signature.Mirror { s with pending := [] } { s' with pending := [] } :=
      ⟨hsame.name, hsame.slotName, hsame.parameters, .nil, hsame.body⟩
    simp only [hname]
    refine .ite .rfl (fun _ => .pure ⟨.some hdone, .append hsame.pending ?_⟩) fun _ => ?_
    · exact reported_atName m rfl
    refine .bind .get fun cx _ hcx => ?_
    subst hcx
    have hhas : ((placeless cx).configuration.modifiers kind.modifierKind).has
        (s.name.getD "") = (cx.configuration.modifiers kind.modifierKind).has
        (s.name.getD "") := by
      show ((placeless cx.configuration).modifiers kind.modifierKind).has _ = _
      rw [Configuration.modifiers_placeless, Registry.has_placeless]
    simp only [hhas]
    cases kind with
    | block =>
      exact .pure ⟨.some hdone, .append hsame.pending (.ite (reported_atName m rfl) .nil)⟩
    | inline =>
      have hflat := flattenInline_placeless m.content false
      refine .pure ⟨.some ⟨hsame.name, hsame.slotName, hsame.parameters, .nil, ?_⟩, ?_⟩
      · exact congrArg some hflat.1
      · exact .append (.append hsame.pending (.ite (reported_atName m rfl) .nil)) hflat.2

theorem mirrors_expand_define (kind : MacroKind) (m : Modifier) {s s' : Option Signature}
    (immediate : Bool) (h : SignatureAlike s s') : Step.Mirrors (Decided SignatureAlike)
      ((defineLifecycle kind).expand m s immediate)
      ((defineLifecycle kind).expand (placeless m) s' immediate) := by
  refine .ite .rfl (fun _ => .pure ⟨rfl, h⟩) fun _ => ?_
  cases h with
  | none => exact .pure ⟨rfl, .none⟩
  | @some s s' hsame =>
    have hname : s'.name.getD "" = s.name.getD "" := by rw [hsame.name]
    have hbody : s'.body.getD (placeless m).content = placeless (s.body.getD m.content) := by
      rw [hsame.body]
      cases s.body <;> rfl
    simp only [hname, hbody, hsame.parameters, hsame.slotName]
    refine .ite .rfl (fun _ => ?_) fun _ => .pure ⟨rfl, .some hsame⟩
    refine .bind (.modify ?_) fun _ _ _ => .pure ⟨rfl, .some hsame⟩
    rintro cx _ rfl
    exact congrArg
      (fun c => Context.configurationChanged { placeless cx with configuration := c })
      ((congrArg (Configuration.set (placeless cx.configuration))
        (custom_placeless kind _ _ _ _).symm).trans (Configuration.set_placeless _ _))

theorem mirrors_define (kind : MacroKind) :
    (defineLifecycle kind).Mirrors (defineLifecycle kind) SignatureAlike where
  beforeContent m immediate := by
    simp only [defineLifecycle, checkCount?_placeless]
    cases hproblem : checkCount? m 1 none with
    | some problem => exact .pure ⟨.none, .single rfl (isLayout_checkCount? hproblem)⟩
    | none =>
      obtain ⟨span, head, definition, arguments, content, expansion⟩ := m
      cases arguments with
      | nil => exact .pure ⟨.none, .nil⟩
      | cons name others =>
        have hsame := Signature.mirror_ofArguments name others
        refine .bind (.modifyMacros fun s => ?_) fun _ _ _ => .pure ⟨.some hsame, .nil⟩
        show (placeless s).setDelayed kind (⟨(Signature.ofArguments (placeless name)
          (placeless others)).slotName, (Signature.ofArguments (placeless name)
          (placeless others)).parameters⟩ :: (placeless s).delayed kind) = _
        rw [hsame.slotName, hsame.parameters, MacroState.delayed_placeless,
          MacroState.setDelayed_placeless]
  afterContent s s' h := by
    cases h with
    | none => exact .pure .none
    | some hsame =>
      refine .bind Mirrors.macros fun macros _ hmacros => ?_
      subst hmacros
      rw [MacroState.delayed_placeless]
      cases macros.delayed kind with
      | nil => exact .throw _
      | cons frame outer =>
        refine .ite (by rw [hsame.slotName]) (fun _ => .throw _) fun _ => ?_
        exact .bind (.modifyMacros fun s => MacroState.setDelayed_placeless s kind outer)
          fun _ _ _ => .pure (.some hsame)
  prepare m _ _ immediate h := mirrors_prepare_define kind m immediate h
  expand m _ _ immediate h := mirrors_expand_define kind m immediate h
  beforeProcessing _ _ _ h := .pure h
  afterProcessing _ _ _ := .pure rfl

instance : Placed SlotState where
  placeless
    | .open => .open
    | .failed => .failed
    | .resolved outer detached => .resolved outer (placeless detached)

theorem findOwner?_placeless (slotName : String) (frames : List Frame) :
    findOwner? slotName (placeless frames) = findOwner? slotName frames := by
  induction frames with
  | nil => rfl
  | cons frame rest ih =>
    rw [placeless_cons, findOwner?, ih, length_placeless, findOwner?]
    rfl

theorem frameInside?_placeless (frames : List Frame) (outer : Nat) :
    frameInside? (placeless frames) outer = placeless (frameInside? frames outer) := by
  show (frames.map placeless).reverse[outer]? = (frames.reverse[outer]?).map placeless
  rw [← List.map_reverse, List.getElem?_map]

theorem Mirrors.locateSlot (kind : MacroKind) (m : Modifier) (argument : Option Argument)
    (immediate : Bool) :
    Step.Mirrors (With Forgets) (locateSlot kind m argument immediate)
      (locateSlot kind (placeless m) (placeless argument) immediate) := by
  have hname : ((placeless argument).map (·.text)).getD "" = (argument.map (·.text)).getD "" := by
    cases argument with
    | none => rfl
    | some a => exact text_placeless a
  simp only [MacroMarkup.locateSlot, hname]
  refine .bind Mirrors.macros fun macros _ hmacros => ?_
  subst hmacros
  rw [MacroState.frames_placeless, MacroState.delayed_placeless]
  have hempty : (placeless (macros.frames kind)).isEmpty = (macros.frames kind).isEmpty :=
    List.isEmpty_map
  refine .ite (by rw [hempty]) (fun _ => ?_) fun _ => .ite .rfl (fun _ => .pure ⟨rfl, .nil⟩)
    fun _ => ?_
  · refine .ite .rfl (fun _ => ?_) fun _ => .pure ⟨rfl, .nil⟩
    -- without places no span is reversed
    refine .bind (R := Forgets) ?_ fun span _ hspan => ?_
    · intro cx t hcx
      show EndsAlike _ _ (Except.bind (Span.checked m.span.start m.head.stop) fun span => _) _
      unfold Span.checked
      split
      · exact .ok rfl hcx
      · exact .reversed _
    · subst hspan
      exact .pure ⟨rfl, .problem rfl⟩
  · cases argument with
    | none => exact .pure ⟨by rw [length_placeless]; rfl, .nil⟩
    | some a =>
      obtain ⟨span, content, value⟩ := a
      simp only [placeless_some, findOwner?_placeless]
      split
      · exact .pure ⟨rfl, .nil⟩
      · exact .ite .rfl (fun _ => .pure ⟨rfl, .problem rfl⟩) fun _ => .pure ⟨rfl, .nil⟩

theorem mirrors_prepare_slot (kind : MacroKind) (m : Modifier) (immediate : Bool) :
    Step.Mirrors (With (@Forgets SlotState _)) ((slotLifecycle kind).prepare m .open immediate)
      ((slotLifecycle kind).prepare (placeless m) .open immediate) := by
  simp only [slotLifecycle, checkCount?_placeless]
  cases hproblem : checkCount? m 0 (some 1) with
  | some problem =>
    cases immediate with
    | false => exact .pure ⟨rfl, .nil⟩
    | true => exact .pure ⟨rfl, .single rfl (isLayout_checkCount? hproblem)⟩
  | none =>
    have hhead : (placeless m).arguments.head? = placeless m.arguments.head? := List.head?_map
    simp only [placeless_none, hhead]
    cases m.arguments.head? with
    | none => exact .locateSlot kind m none immediate
    | some a =>
      have hlocated := Mirrors.locateSlot kind m (some a) immediate
      obtain ⟨span, content, value⟩ := a
      refine .ite .rfl (fun _ => .pure ⟨rfl, .nil⟩) fun _ => ?_
      exact .ite .rfl (fun _ => .pure ⟨rfl, .problem rfl⟩) fun _ => hlocated

theorem mirrors_slot (kind : MacroKind) :
    (slotLifecycle kind).Mirrors (slotLifecycle kind) (@Forgets SlotState _) where
  beforeContent _ _ := .pure ⟨rfl, .nil⟩
  afterContent _ _ h := .pure h
  prepare m _ _ immediate _ := mirrors_prepare_slot kind m immediate
  expand m s s' immediate h := by
    subst h
    cases s with
    | «open» => exact .pure ⟨rfl, rfl⟩
    | failed => exact .pure ⟨rfl, rfl⟩
    | resolved outer detached =>
      refine .bind Mirrors.macros fun macros _ hmacros => ?_
      subst hmacros
      rw [MacroState.frames_placeless, frameInside?_placeless]
      cases frameInside? (macros.frames kind) outer with
      | none => exact .throw _
      | some frame => exact .pure ⟨rfl, rfl⟩
  beforeProcessing m s s' h := by
    subst h
    cases s with
    | «open» => exact .pure rfl
    | failed => exact .pure rfl
    | resolved outer detached =>
      refine .bind Mirrors.macros fun macros _ hmacros => ?_
      subst hmacros
      have hdrop : ∀ count, (placeless (macros.frames kind)).drop count
          = placeless ((macros.frames kind).drop count) := fun _ => List.map_drop.symm
      have htake : ∀ count, (placeless (macros.frames kind)).take count
          = placeless ((macros.frames kind).take count) := fun _ => List.map_take.symm
      simp only [MacroState.frames_placeless, length_placeless, hdrop, htake]
      exact .bind (.modifyMacros fun s => MacroState.setFrames_placeless s kind _) fun _ _ _ =>
        .pure rfl
  afterProcessing s s' h := by
    subst h
    cases s with
    | «open» => exact .pure rfl
    | failed => exact .pure rfl
    | resolved outer detached =>
      refine .bind Mirrors.macros fun macros _ hmacros => ?_
      subst hmacros
      simp only [MacroState.frames_placeless, length_placeless, ← placeless_append]
      refine .ite .rfl (fun _ => .throw _) fun _ => ?_
      exact .modifyMacros fun s => MacroState.setFrames_placeless s kind _

theorem mirrors_custom (kind : MacroKind) (name : String) (parameters : List String)
    (slotName : String) (body : List Node) :
    (customLifecycle kind name parameters slotName body).Mirrors
      (customLifecycle kind name parameters slotName (placeless body)) Eq where
  beforeContent _ _ := .pure ⟨rfl, .nil⟩
  afterContent _ _ h := .pure h
  prepare m s s' immediate h := by
    subst h
    have hvalues : (placeless m).arguments.map (·.text) = m.arguments.map (·.text) := by
      show (m.arguments.map placeless).map _ = _
      simp only [List.map_map, Function.comp_def, text_placeless]
    simp only [customLifecycle, checkArguments?_placeless, hvalues]
    cases hproblem : checkArguments? m parameters.length (some parameters.length) with
    | some problem => exact .pure ⟨rfl, .single rfl (isLayout_checkArguments? hproblem)⟩
    | none => exact .pure ⟨rfl, .nil⟩
  expand m s s' immediate h := by
    subst h
    exact .ite .rfl (fun _ => .pure ⟨rfl, rfl⟩) fun _ => .pure ⟨rfl, rfl⟩
  beforeProcessing m s s' h := by
    subst h
    cases s with
    | none => exact .pure rfl
    | some arguments =>
      refine .bind (.modifyMacros fun s => ?_) fun _ _ _ => .pure rfl
      rw [MacroState.frames_placeless]
      exact MacroState.setFrames_placeless s kind
        (⟨slotName, name, arguments, m.content⟩ :: s.frames kind)
  afterProcessing s s' h := by
    subst h
    refine .ite .rfl (fun _ => ?_) fun _ => .pure rfl
    refine .bind Mirrors.macros fun macros _ hmacros => ?_
    subst hmacros
    rw [MacroState.frames_placeless]
    cases macros.frames kind with
    | nil => exact .throw _
    | cons frame outer =>
      refine .ite .rfl (fun _ => .throw _) fun _ => ?_
      exact .modifyMacros fun s => MacroState.setFrames_placeless s kind outer

/-- **No behaviour looks at places.** -/
theorem mirrors (behaviour : Behaviour) :
    ∃ R, behaviour.lifecycle.Mirrors (placeless behaviour).lifecycle R := by
  cases behaviour with
  | plain => exact ⟨_, mirrors_plain⟩
  | unknown head => exact ⟨_, mirrors_unknown head⟩
  | define kind => exact ⟨_, mirrors_define kind⟩
  | slot kind => exact ⟨_, mirrors_slot kind⟩
  | print => exact ⟨_, mirrors_print⟩
  | raw => exact ⟨_, mirrors_raw⟩
  | assign => exact ⟨_, mirrors_assign⟩
  | reference => exact ⟨_, mirrors_reference⟩
  | conditional expectDefined => exact ⟨_, mirrors_conditional expectDefined⟩
  | pushNotation => exact ⟨_, mirrors_pushNotation⟩
  | popNotation => exact ⟨_, mirrors_popNotation⟩
  | recordModule => exact ⟨_, mirrors_recordModule⟩
  | useInside => exact ⟨_, mirrors_useInside⟩
  | useFromHere => exact ⟨_, mirrors_useFromHere⟩
  | custom kind name parameters slotName body =>
    have hbody : placeless (Behaviour.custom kind name parameters slotName body)
        = .custom kind name parameters slotName (placeless body) :=
      congrArg (Behaviour.custom kind name parameters slotName) (placelessNodes_eq body)
    rw [hbody]
    exact ⟨_, mirrors_custom kind name parameters slotName body⟩

end Behaviours

end MacroMarkup
