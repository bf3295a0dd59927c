import MacroMarkup.Proofs.Mirror

/-!
# No walk looks at places

What expands a tree only calls the behaviours of its modifiers, keeps count of how deep it is and
passes messages on, so it mirrors itself as they do.

* `Engine.Mirror`: an engine and the same without places.
* `mirrors_expandArguments`: arguments.
* `mirrors_expandRead`: the end of the life of a modifier that was read.
* `mirrors_process`: **no walk looks at places.**
-/

namespace MacroMarkup

open Placed (placeless)

/-- The second engine is the first without places, as far as messages go only behind certain
ones. -/
structure Engine.Mirror (before before' : List Message) (e e' : Engine) : Prop where
  context : e'.context = placeless e.context
  referring : e'.referring = placeless e.referring
  delayDepth : e'.delayDepth = e.delayDepth
  refusals : e'.refusals = e.refusals
  losses : e'.losses = e.losses
  anticipations : e'.anticipations = e.anticipations
  emitted : ∃ news news', e.emitted = news ++ before ∧ e'.emitted = news' ++ before' ∧
    Reported news news'

def Flagged {α β : Type} [Placed α] (r r' : α × β) : Prop := r' = (placeless r.1, r.2)

section Steps

variable {α β : Type} {R : α → β → Prop} {before before' : List Message}

theorem Mirrors.inContext {x : Step α} {y : Step β} (h : Step.Mirrors R x y) :
    Mirrors (Engine.Mirror before before') R (Expand.inContext x) (Expand.inContext y) := by
  intro e e' he
  have h := h e.context e'.context he.context
  simp only [Expand.inContext, Bind.bind, Except.bind]
  generalize x e.context = left at h
  generalize y e'.context = right at h
  cases h with
  | ok hab hcx =>
    exact .ok hab ⟨hcx, he.referring, he.delayDepth, he.refusals, he.losses, he.anticipations,
      he.emitted⟩
  | error fault => exact .error fault
  | reversed result => exact .reversed _

theorem Reported.referred {messages messages' : List Message} (h : Reported messages messages')
    (spans : List Span) :
    Reported (messages.map fun message => spans.foldl Message.referred message).reverse
      (messages'.map fun message => (placeless spans).foldl Message.referred message).reverse := by
  have hone : ∀ message : Message, (placeless spans).foldl Message.referred (placeless message)
      = placeless (spans.foldl Message.referred message) := by
    induction spans with
    | nil => exact fun _ => rfl
    | cons span outer ih =>
      intro message
      rw [placeless_cons, List.foldl_cons, List.foldl_cons, ← ih, placeless_referred]
      rfl
  constructor
  · rw [h.same]
    show ((messages.map placeless).map _).reverse = (List.reverse _).map _
    rw [List.map_map, List.map_reverse, List.map_map]
    refine congrArg List.reverse (List.map_congr_left fun message _ => hone message)
  · intro message hmessage
    obtain ⟨original, horiginal, rfl⟩ := List.mem_map.mp (List.mem_reverse.mp hmessage)
    rw [isLayout_foldl_referred]
    exact h.content original horiginal

theorem Mirrors.emit {messages messages' : List Message} (h : Reported messages messages') :
    Mirrors (Engine.Mirror before before') Eq (Expand.emit messages)
      (Expand.emit messages') := by
  refine .modify fun e e' he => ?_
  obtain ⟨news, news', hnews, hnews', hreported⟩ := he.emitted
  have hemitted := h.referred e.referring
  rw [← he.referring] at hemitted
  refine ⟨he.context, he.referring, he.delayDepth, he.refusals, he.losses, he.anticipations,
    _, _, ?_, ?_, hemitted.append hreported⟩
  · simp only [Engine.emit, hnews, List.append_assoc]
  · simp only [Engine.emit, hnews', List.append_assoc]

theorem Mirrors.reporting {x : Step (α × List Message)} {y : Step (β × List Message)}
    (h : Step.Mirrors (With R) x y) :
    Mirrors (Engine.Mirror before before') R (Expand.reporting x) (Expand.reporting y) := by
  refine .bind (.inContext h) fun r r' hr => ?_
  exact .bind (.emit hr.2) fun _ _ _ => .pure hr.1

theorem Mirrors.immediate :
    Mirrors (Engine.Mirror before before') Eq Expand.immediate Expand.immediate := by
  refine .bind .get fun e e' he => .pure ?_
  rw [Engine.immediate, Engine.immediate, he.delayDepth]

theorem Mirrors.enterBody (delayed : Bool) :
    Mirrors (Engine.Mirror before before') Eq (Expand.enterBody delayed)
      (Expand.enterBody delayed) :=
  .modify fun _ _ he => ⟨he.context, he.referring, by rw [he.delayDepth], he.refusals, he.losses,
    he.anticipations, he.emitted⟩

theorem Mirrors.leaveBody (delayed : Bool) :
    Mirrors (Engine.Mirror before before') Eq (Expand.leaveBody delayed)
      (Expand.leaveBody delayed) :=
  .modify fun _ _ he => ⟨he.context, he.referring, by rw [he.delayDepth], he.refusals, he.losses,
    he.anticipations, he.emitted⟩

theorem Mirrors.enterReplacement (span : Span) :
    Mirrors (Engine.Mirror before before') Eq (Expand.enterReplacement span)
      (Expand.enterReplacement (placeless span)) :=
  .modify fun _ _ he => ⟨he.context, by rw [he.referring]; rfl, he.delayDepth, he.refusals,
    he.losses, he.anticipations, he.emitted⟩

theorem Mirrors.leaveReplacement :
    Mirrors (Engine.Mirror before before') Eq Expand.leaveReplacement
      Expand.leaveReplacement := by
  refine .bind .get fun e e' he => ?_
  rw [he.referring]
  cases e.referring with
  | nil => exact .throw _
  | cons span outer =>
    exact .modify fun _ _ he => ⟨he.context, rfl, he.delayDepth, he.refusals, he.losses,
      he.anticipations, he.emitted⟩

end Steps

/-! ### Arguments -/

section Arguments

variable {before before' : List Message}

mutual

theorem mirrors_expandArgument : ∀ a : Argument,
    Mirrors (Engine.Mirror before before') Flagged (expandArgument a)
      (expandArgument (placeless a))
  | ⟨span, content, some value⟩ => by
    simp only [placeless, Argument.placeless, expandArgument]
    exact .pure rfl
  | ⟨span, content, none⟩ => by
    simp only [placeless, Argument.placeless, expandArgument]
    refine .bind (mirrors_expandEntities content) fun r r' hr => ?_
    cases hr
    exact .pure (by simp only [Flagged, placeless, Argument.placeless])

theorem mirrors_expandEntities : ∀ entities : List Entity,
    Mirrors (Engine.Mirror before before')
      (fun r r' => r' = (placelessEntities r.1, r.2)) (expandEntities entities)
      (expandEntities (placelessEntities entities))
  | [] => by
    simp only [placelessEntities, expandEntities]
    exact .pure rfl
  | entity :: rest => by
    simp only [placelessEntities, expandEntities]
    refine .bind (mirrors_expandEntity entity) fun r r' hr => ?_
    cases hr
    cases r.2 with
    | none => exact .pure rfl
    | some value =>
      refine .bind (mirrors_expandEntities rest) fun r r' hr => ?_
      cases hr
      exact .pure rfl

theorem mirrors_expandEntity : ∀ entity : Entity,
    Mirrors (Engine.Mirror before before') Flagged (expandEntity entity)
      (expandEntity entity.placeless)
  | .text span content => by
    simp only [Entity.placeless, expandEntity]
    exact .pure rfl
  | .escaped span content => by
    simp only [Entity.placeless, expandEntity]
    exact .pure rfl
  | .interpolation span interpolator argument (some value) => by
    simp only [Entity.placeless, expandEntity]
    exact .pure rfl
  | .interpolation span interpolator argument none => by
    simp only [Entity.placeless, expandEntity]
    refine .bind (mirrors_expandArgument argument) fun r r' hr => ?_
    cases hr
    refine .bind .immediate fun immediate _ himmediate => ?_
    subst himmediate
    cases r.2 with
    | none => exact .pure rfl
    | some name =>
      refine .ite .rfl (fun _ => .pure rfl) fun _ => ?_
      refine .bind (.inContext .resolve) fun found _ hfound => ?_
      subst hfound
      cases found with
      | value text => exact .pure rfl
      | deferred => exact .pure rfl
      | undefined =>
        refine .ite .rfl (fun _ => ?_) fun _ => .pure rfl
        exact .bind (.emit (.problem rfl)) fun _ _ _ => .pure rfl

end

theorem mirrors_expandArguments (arguments : List Argument) :
    Mirrors (Engine.Mirror before before') Forgets (expandArguments arguments)
      (expandArguments (placeless arguments)) := by
  induction arguments with
  | nil => exact .pure rfl
  | cons argument rest ih =>
    refine .bind (mirrors_expandArgument argument) fun r r' hr => ?_
    cases hr
    refine .bind ih fun rest rest' hrest => ?_
    cases hrest
    exact .pure rfl

end Arguments

/-! ### Walks -/

def Walk.Mirrors (before before' : List Message) (walk walk' : Walk) : Prop :=
  ∀ nodes, MacroMarkup.Mirrors (Engine.Mirror before before') Flagged (walk nodes)
    (walk' (placeless nodes))

section Walks

variable {before before' : List Message} {walk walk' : Walk} {m : Modifier}
  {R : m.definition.behaviour.lifecycle.State →
    (placeless m).definition.behaviour.lifecycle.State → Prop}
  {s : m.definition.behaviour.lifecycle.State}
  {s' : (placeless m).definition.behaviour.lifecycle.State}

theorem mirrors_processNodes (hw : Walk.Mirrors before before' walk walk') (outermost : Bool)
    (hlife : m.definition.behaviour.lifecycle.Mirrors
      (placeless m).definition.behaviour.lifecycle R) (hs : R s s') (nodes : List Node) :
    Mirrors (Engine.Mirror before before') Flagged (processNodes walk outermost m s nodes)
      (processNodes walk' outermost (placeless m) s' (placeless nodes)) := by
  have hempty : (placeless nodes).isEmpty = nodes.isEmpty := List.isEmpty_map
  simp only [processNodes, hempty]
  refine .ite .rfl (fun hnil => .pure ?_) fun _ => ?_
  · rfl
  refine .bind (.inContext (hlife.beforeProcessing m s s' hs)) fun s s' hs => ?_
  refine .bind (.enterReplacement m.span) fun _ _ _ => ?_
  refine .bind (hw nodes) fun r r' hr => ?_
  cases hr
  refine .bind .leaveReplacement fun _ _ _ => ?_
  refine .bind (.inContext (hlife.afterProcessing s s' hs)) fun _ _ _ => ?_
  refine .ite .rfl (fun _ => ?_) fun _ => .pure rfl
  refine .bind .get fun e e' he => ?_
  have hlimit : e'.context.configuration.depthLimit = e.context.configuration.depthLimit := by
    rw [he.context]
    rfl
  simp only [hlimit]
  exact .bind (.emit (.problem rfl)) fun _ _ _ => .pure rfl

theorem mirrors_finishModifier (hw : Walk.Mirrors before before' walk walk') (outermost : Bool)
    (hlife : m.definition.behaviour.lifecycle.Mirrors
      (placeless m).definition.behaviour.lifecycle R) (hs : R s s') :
    Mirrors (Engine.Mirror before before') Flagged (finishModifier walk outermost m s)
      (finishModifier walk' outermost (placeless m) s') := by
  refine .bind .immediate fun immediate _ himmediate => ?_
  subst himmediate
  refine .bind (.reporting (hlife.prepare m s s' immediate hs)) fun s s' hs => ?_
  refine .bind (.inContext (hlife.expand m s s' immediate hs)) fun d d' hd => ?_
  obtain ⟨outcome, s⟩ := d
  obtain ⟨outcome', s'⟩ := d'
  obtain ⟨houtcome, hs⟩ := hd
  cases houtcome
  cases outcome with
  | defer => exact .pure rfl
  | keep =>
    refine .bind (mirrors_processNodes hw outermost hlife hs m.content) fun r r' hr => ?_
    cases hr
    exact .pure rfl
  | replace nodes =>
    refine .bind (mirrors_processNodes hw outermost hlife hs nodes) fun r r' hr => ?_
    cases hr
    simp only [areResolved_placeless]
    refine .ite .rfl (fun _ => ?_) fun _ => .pure rfl
    refine .bind (.modify fun _ _ he => ?_) fun _ _ _ => .pure rfl
    exact ⟨he.context, he.referring, he.delayDepth, he.refusals, he.losses,
      by rw [he.anticipations], he.emitted⟩

theorem mirrors_isDelayed (m : Modifier) :
    Mirrors (Engine.Mirror before before') Eq m.isDelayed (placeless m).isDelayed := by
  refine .bind .immediate fun immediate _ himmediate => ?_
  subst himmediate
  exact .pure rfl

/-- **The end of the life of a modifier that was read does not depend on places.** -/
theorem mirrors_expandRead (hw : Walk.Mirrors before before' walk walk')
    (hlife : m.definition.behaviour.lifecycle.Mirrors
      (placeless m).definition.behaviour.lifecycle R) (hs : R s s') :
    Mirrors (Engine.Mirror before before') Flagged (expandRead walk m s)
      (expandRead walk' (placeless m) s') := by
  refine .bind (mirrors_isDelayed m) fun delayed _ hdelayed => ?_
  subst hdelayed
  exact .ite .rfl (fun _ => .pure rfl) fun _ => mirrors_finishModifier hw true hlife hs

theorem mirrors_walkContent (hw : Walk.Mirrors before before' walk walk') (m : Modifier) :
    Mirrors (Engine.Mirror before before') Forgets (walkContent walk m)
      (walkContent walk' (placeless m)) := by
  have hempty : (placeless m).content.isEmpty = m.content.isEmpty := List.isEmpty_map
  simp only [walkContent, hempty]
  refine .ite .rfl (fun _ => .pure rfl) fun _ => ?_
  refine .bind (.enterBody _) fun _ _ _ => ?_
  refine .bind (hw m.content) fun r r' hr => ?_
  cases hr
  refine .bind (.leaveBody _) fun _ _ _ => ?_
  refine .ite .rfl (fun _ => ?_) fun _ => .pure rfl
  refine .bind (.modify fun _ _ he => ?_) fun _ _ _ => .pure rfl
  exact ⟨he.context, he.referring, he.delayDepth, he.refusals, by rw [he.losses],
    he.anticipations, he.emitted⟩

theorem mirrors_expandGenerated (hw : Walk.Mirrors before before' walk walk') (m : Modifier) :
    Mirrors (Engine.Mirror before before') Flagged (expandGenerated walk m)
      (expandGenerated walk' (placeless m)) := by
  have hexpanded : (placeless m).expansion.isSome = m.expansion.isSome := Option.isSome_map
  simp only [expandGenerated, hexpanded]
  refine .ite .rfl (fun _ => .pure rfl) fun _ => ?_
  refine .bind (mirrors_expandArguments m.arguments) fun arguments _ harguments => ?_
  subst harguments
  obtain ⟨R, hlife⟩ := mirrors m.definition.behaviour
  refine .bind (mirrors_isDelayed { m with arguments := arguments }) fun delayed _ hdelayed => ?_
  subst hdelayed
  refine .ite .rfl (fun _ => .pure rfl) fun _ => ?_
  refine .bind .immediate fun immediate _ himmediate => ?_
  subst himmediate
  refine .bind (.reporting (hlife.beforeContent { m with arguments := arguments } immediate))
    fun s s' hs => ?_
  refine .bind (mirrors_walkContent hw { m with arguments := arguments })
    fun content _ hcontent => ?_
  subst hcontent
  refine .bind (.inContext (hlife.afterContent s s' hs)) fun s s' hs => ?_
  exact mirrors_finishModifier (m := { m with arguments := arguments, content := content }) hw
    false hlife hs

theorem mirrors_processNode (hw : Walk.Mirrors before before' walk walk') (node : Node) :
    Mirrors (Engine.Mirror before before') Flagged (processNode walk node)
      (processNode walk' (placeless node)) := by
  cases node with
  | paragraph span content =>
    rw [placeless_paragraph]
    refine .bind (hw content) fun r r' hr => ?_
    cases hr
    refine .pure ?_
    rw [Flagged, placeless_paragraph]
  | modifier m =>
    rw [placeless_modifier]
    refine .bind (mirrors_expandGenerated hw m) fun r r' hr => ?_
    cases hr
    refine .pure ?_
    rw [Flagged, placeless_modifier]
  | text span content => exact .pure rfl
  | escaped span content => exact .pure rfl
  | preformatted span contentSpan text => exact .pure rfl

theorem mirrors_processEach (hw : Walk.Mirrors before before' walk walk') :
    Walk.Mirrors before before' (processEach walk) (processEach walk') := by
  intro nodes
  induction nodes with
  | nil => exact .pure rfl
  | cons node rest ih =>
    refine .bind (mirrors_processNode hw node) fun r r' hr => ?_
    cases hr
    refine .bind ih fun others others' hothers => ?_
    cases hothers
    exact .pure rfl

/-- **No walk looks at places.** -/
theorem mirrors_process (levels : Nat) :
    Walk.Mirrors before before' (process levels) (process levels) := by
  induction levels with
  | zero =>
    refine fun nodes => .bind (.modify fun _ _ he => ?_) fun _ _ _ => .pure rfl
    exact ⟨he.context, he.referring, he.delayDepth, by rw [he.refusals], he.losses,
      he.anticipations, he.emitted⟩
  | succ levels ih => exact mirrors_processEach ih

end Walks

end MacroMarkup
