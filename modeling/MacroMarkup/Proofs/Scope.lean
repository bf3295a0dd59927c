import MacroMarkup.Proofs.Nesting

/-!
# The scope of slot content

A slot stands for the body of an invocation, and that body was written by the invocation's
caller.  Between the invocation and its slot other invocations and slots may lie, nested in
any way.  What a place sees follows from the trail of processings that lead to it: each puts
an invocation on the stack of its kind, or sets some aside, or leaves the stack alone.

* `replay`: a stack moved as the processings of a trail say.
* `Visit.Reaches.frames`: the stacks at a place are those at the start, replayed.
* `Processing.BelongsTo`: a slot belongs to an invocation, told apart from all others on
  the stack by when it was entered and not by what it holds.
* `Processing.BelongsTo.stack`: **then the stack holds the invocation at this place, right
  above those that its caller saw.**
* `slot_content_scope`, `slot_content_resolution`: what the content of a slot sees, and what
  its names stand for.
-/

namespace MacroMarkup

/-! ### Replaying a trail -/

/-- A stack, moved as the processings of a trail say, the outermost first; invocations are
written as `write` says. -/
def replay {α : Type} (kind : MacroKind) (write : Frame → α) (trail : List Processing)
    (stack : List α) : List α :=
  trail.foldl (fun stack P => (P.move kind).follow write stack) stack

section Replay

variable {α β : Type} {kind : MacroKind} {write : Frame → α} {trail : List Processing}
  {stack : List α}

theorem replay_append (trail' : List Processing) : replay kind write (trail ++ trail') stack
    = replay kind write trail' (replay kind write trail stack) := List.foldl_append

theorem map_follow (f : α → β) (move : Move) :
    (move.follow write stack).map f = move.follow (f ∘ write) (stack.map f) := by
  cases move with
  | stay => rfl
  | enter frame => rfl
  | backTo outer => simp only [Move.follow, List.map_drop, List.length_map]

theorem map_replay (f : α → β) :
    (replay kind write trail stack).map f = replay kind (f ∘ write) trail (stack.map f) := by
  induction trail generalizing stack with
  | nil => rfl
  | cons P trail ih =>
    rw [replay, List.foldl_cons]
    exact ih.trans (congrArg _ (map_follow f (P.move kind)))

theorem replay_of_stay (h : ∀ P ∈ trail, P.move kind = .stay) :
    replay kind write trail stack = stack := by
  induction trail with
  | nil => rfl
  | cons P trail ih =>
    rw [replay, List.foldl_cons, h P List.mem_cons_self]
    exact ih fun Q hQ => h Q (List.mem_cons_of_mem P hQ)

end Replay

theorem Visit.Asks.frames {v w : Visit} {entered : List Processing} (h : v.Asks entered w)
    (kind : MacroKind) :
    w.engine.context.frames kind = replay kind id entered (v.engine.context.frames kind) := by
  cases h with
  | paragraph hmet => exact congrFun hmet.frames kind
  | content hmet hopens _ => exact congrFun (hopens.frames.trans hmet.frames) kind
  | replacement hmet hprocesses hstarts =>
    rw [← hmet.frames, ← hprocesses.frames]
    exact hstarts.frames kind

/-- **The stacks at a place are those at the start, replayed along the trail.** -/
theorem Visit.Reaches.frames {v w : Visit} {trail : List Processing} (h : v.Reaches trail w)
    (kind : MacroKind) :
    w.engine.context.frames kind = replay kind id trail (v.engine.context.frames kind) := by
  induction h with
  | start => rfl
  | ask _ hasks ih => rw [hasks.frames, ih, replay_append]

/-! ### The invocation that a slot belongs to -/

/-- Which place of the stack holds the invocation that was entered on top of `below` others:
`true` stands there, and `false` for all others. -/
def ownMarks (kind : MacroKind) (below : Nat) (trail : List Processing) : List Bool :=
  replay kind (fun _ => false) trail (true :: List.replicate below false)

/-- A slot that was come to along a trail belongs to the invocation inside which the trail
begins, and which was entered on top of `below` others. -/
def Processing.BelongsTo (Q : Processing) (kind : MacroKind) (below : Nat)
    (trail : List Processing) : Prop :=
  ∃ outer, Q.move kind = .backTo outer ∧ (ownMarks kind below trail).reverse[outer]? = some true

theorem getElem?_reverse_eq_some_iff {α : Type} {l : List α} {i : Nat} {a : α} :
    l.reverse[i]? = some a ↔ ∃ inner outer, l = inner ++ a :: outer ∧ outer.length = i := by
  constructor
  · intro h
    obtain ⟨hi, ha⟩ := List.getElem?_eq_some_iff.mp h
    have hsplit : l.reverse = l.reverse.take i ++ a :: l.reverse.drop (i + 1) := by
      rw [← ha, ← List.drop_eq_getElem_cons hi, List.take_append_drop]
    refine ⟨(l.reverse.drop (i + 1)).reverse, (l.reverse.take i).reverse, ?_, ?_⟩
    · have hreverse := congrArg List.reverse hsplit
      simpa using hreverse
    · rw [List.length_reverse, List.length_take, Nat.min_eq_left (Nat.le_of_lt hi)]
  · rintro ⟨inner, outer, rfl, rfl⟩
    simp

/-- The stack on which the own invocation is marked. -/
def markedStack (frame : Frame) (outside : List Frame) : List (Bool × Frame) :=
  (true, frame) :: outside.map fun other => (false, other)

/-- Wherever the own invocation stands on the stack, it stands on what lay below it. -/
def OwnStands (frame : Frame) (outside : List Frame) (stack : List (Bool × Frame)) : Prop :=
  ∀ found below, (true, found) :: below <:+ stack →
    found = frame ∧ below = outside.map fun other => (false, other)

section Ownership

variable {kind : MacroKind} {frame : Frame} {outside : List Frame}

theorem ownStands_markedStack : OwnStands frame outside (markedStack frame outside) := by
  intro found below h
  rcases List.suffix_cons_iff.mp h with heq | h
  · cases heq
    exact ⟨rfl, rfl⟩
  · have hmem : (true, found) ∈ outside.map fun other => (false, other) :=
      h.subset List.mem_cons_self
    simp at hmem

/-- Neither a new invocation nor setting some aside moves the own one. -/
theorem OwnStands.follow {stack : List (Bool × Frame)} (h : OwnStands frame outside stack)
    (move : Move) : OwnStands frame outside (move.follow (fun other => (false, other)) stack) := by
  cases move with
  | stay => exact h
  | enter other =>
    intro found below hsuffix
    rcases List.suffix_cons_iff.mp hsuffix with heq | hsuffix
    · cases heq
    · exact h found below hsuffix
  | backTo outer =>
    exact fun found below hsuffix => h found below (hsuffix.trans (List.drop_suffix _ _))

theorem OwnStands.replay {stack : List (Bool × Frame)} (h : OwnStands frame outside stack)
    (trail : List Processing) :
    OwnStands frame outside (replay kind (fun other => (false, other)) trail stack) := by
  induction trail generalizing stack with
  | nil => exact h
  | cons P trail ih => exact ih (h.follow (P.move kind))

/-- **A slot that belongs to an invocation finds it on the stack**, right above those that
lay below it when it was entered, whatever happened in between. -/
theorem Processing.BelongsTo.stack {Q : Processing} {trail : List Processing}
    (h : Q.BelongsTo kind outside.length trail) :
    Q.move kind = .backTo outside.length ∧
      ∃ inner, replay kind id trail (frame :: outside) = inner ++ frame :: outside := by
  obtain ⟨outer, hmove, hmark⟩ := h
  let stack := replay kind (fun other => (false, other)) trail (markedStack frame outside)
  have hmarks : stack.map Prod.fst = ownMarks kind outside.length trail := by
    refine (map_replay Prod.fst).trans ?_
    simp [ownMarks, markedStack, Function.comp_def, List.map_const']
  have hframes : stack.map Prod.snd = replay kind id trail (frame :: outside) := by
    refine (map_replay Prod.snd).trans ?_
    simp only [markedStack, List.map_cons, List.map_map, Function.comp_def, List.map_id']
    rfl
  obtain ⟨inner, below, hsplit, hlength⟩ := getElem?_reverse_eq_some_iff.mp (hmarks ▸ hmark)
  obtain ⟨inner', rest, hstack, -, hrest⟩ := List.map_eq_append_iff.mp hsplit
  obtain ⟨⟨mark, found⟩, below', rfl, hfound, hbelow⟩ := List.map_eq_cons_iff.mp hrest
  cases hfound
  have hstands : OwnStands frame outside stack := ownStands_markedStack.replay trail
  obtain ⟨rfl, rfl⟩ := hstands found below' ⟨inner', hstack.symm⟩
  have houter : outer = outside.length := by
    rw [← hlength, ← hbelow, List.length_map, List.length_map]
  refine ⟨houter ▸ hmove, inner'.map Prod.snd, ?_⟩
  rw [← hframes, hstack]
  simp [Function.comp_def]

end Ownership

/-! ### What a slot stands for -/

/-- A modifier that sets invocations aside stands for the body of the outermost of them. -/
theorem expands_slot (b : Behaviour) (m : Modifier) (state : b.lifecycle.State)
    (immediate : Bool) (cx : Context) :
    Ensures anyFault (b.lifecycle.expand m state immediate) cx fun d decided =>
      ∀ kind outer, b.move kind m d.2 = .backTo outer → ∃ frame,
        frameInside? (decided.frames kind) outer = some frame ∧ d.1 = .replace frame.content := by
  cases b with
  | slot own =>
    cases state with
    | «open» => exact fun kind outer hmove => by cases hmove
    | failed => exact fun kind outer hmove => by cases hmove
    | resolved outer detached =>
      simp only [Behaviour.lifecycle, slotLifecycle, ensures_bind]
      refine ensures_macros_of fun s hs => ?_
      split
      · rename_i frame hframe
        intro kind outer' hmove
        rw [move_slot] at hmove
        split at hmove
        · rename_i heq
          subst heq
          cases hmove
          exact ⟨frame, (Context.frames_of_macros hs) ▸ hframe, rfl⟩
        · cases hmove
      · trivial
  | custom own name parameters slotName body =>
    refine ensures_of_forall fun d _ kind outer hmove => ?_
    obtain ⟨outcome, state'⟩ := d
    cases state' with
    | none => cases hmove
    | some arguments =>
      rw [move_custom] at hmove
      split at hmove <;> cases hmove
  | _ => exact ensures_of_forall fun _ _ _ _ hmove => by cases hmove

theorem Modifier.Processes.slot {levels : Nat} {m : Modifier} {e : Engine} {P : Processing}
    (h : m.Processes levels e P) {kind : MacroKind} {outer : Nat}
    (hmove : P.move kind = .backTo outer) : ∃ frame,
      frameInside? (P.engine.context.frames kind) outer = some frame ∧ P.nodes = frame.content := by
  obtain ⟨_, _, _, _, _, _, _, -, -, -, hdecides⟩ := h
  cases hdecides with
  | intro _ hexpand _ =>
    obtain ⟨context, hrun, rfl⟩ := ok_of_inContext hexpand
    obtain ⟨frame, hframe, houtcome⟩ := (expands_slot _ _ _ _ _).of_ok hrun kind outer hmove
    exact ⟨frame, hframe, congrArg (Outcome.nodes _) houtcome⟩

/-- A processing moves the stack of one kind at most. -/
theorem move_eq_stay {kind kind' : MacroKind} (hkind : kind' ≠ kind) {b : Behaviour}
    {m : Modifier} {state : b.lifecycle.State} (h : b.move kind m state ≠ .stay) :
    b.move kind' m state = .stay := by
  cases b with
  | slot own =>
    cases state with
    | resolved outer detached =>
      rw [move_slot] at h ⊢
      grind
    | «open» => rfl
    | failed => rfl
  | custom own name parameters slotName body =>
    cases state with
    | none => rfl
    | some arguments =>
      rw [move_custom] at h ⊢
      grind
  | _ => rfl

/-! ### What the content of a slot sees -/

/-- Inside the processing of the invocation `P` the walk comes along the trail to the modifier
`m` at `e`, with `levels` more levels below it: a slot that belongs to the invocation, and is
processed as `Q`. -/
structure Processing.Fills (P : Processing) (kind : MacroKind) (frame : Frame)
    (trail : List Processing) (levels : Nat) (m : Modifier) (e : Engine) (Q : Processing) :
    Prop where
  invoked : P.move kind = .enter frame
  reached : ∃ above body w, P.Starts body ∧ Visit.Reaches ⟨above, P.nodes, body⟩ trail w ∧
    w.Meets levels (.modifier m) e
  processed : m.Processes levels e Q
  owned : Q.BelongsTo kind (P.engine.context.frames kind).length trail

namespace Processing.Fills

variable {P Q : Processing} {kind : MacroKind} {frame : Frame} {trail : List Processing}
  {levels : Nat} {m : Modifier} {e inside : Engine}

/-- The stacks right before the slot is processed. -/
theorem frames (h : P.Fills kind frame trail levels m e Q) (kind' : MacroKind) :
    Q.engine.context.frames kind' = replay kind' id trail
      ((P.move kind').follow id (P.engine.context.frames kind')) := by
  obtain ⟨above, body, w, hbody, hreached, hmet⟩ := h.reached
  rw [congrFun h.processed.frames, congrFun hmet.frames, hreached.frames, hbody.frames]

theorem stack (h : P.Fills kind frame trail levels m e Q) :
    Q.move kind = .backTo (P.engine.context.frames kind).length ∧
      ∃ inner, Q.engine.context.frames kind = inner ++ frame :: P.engine.context.frames kind := by
  obtain ⟨hmove, inner, hinner⟩ := @Processing.BelongsTo.stack _ frame _ _ _ h.owned
  refine ⟨hmove, inner, ?_⟩
  rw [h.frames, h.invoked]
  exact hinner

/-- The slot stands for the body of the invocation. -/
theorem nodes (h : P.Fills kind frame trail levels m e Q) : Q.nodes = frame.content := by
  obtain ⟨hmove, inner, hinner⟩ := h.stack
  obtain ⟨found, hfound, hnodes⟩ := h.processed.slot hmove
  rw [frameInside?, hinner, getElem?_reverse_eq_some_iff.mpr ⟨inner, _, rfl, rfl⟩] at hfound
  rw [hnodes, Option.some.inj hfound]

/-- Its own kind's stack is what the caller of the invocation saw. -/
theorem own (h : P.Fills kind frame trail levels m e Q) (hstarts : Q.Starts inside) :
    inside.context.frames kind = P.engine.context.frames kind := by
  obtain ⟨hmove, inner, hinner⟩ := h.stack
  rw [hstarts.frames, hmove, hinner]
  have hsplit : inner ++ frame :: P.engine.context.frames kind
      = (inner ++ [frame]) ++ P.engine.context.frames kind := List.append_cons _ _ _
  rw [hsplit, Move.follow, List.length_append, Nat.add_sub_cancel]
  exact List.drop_left

/-- The other kind's stack is what the slot finds. -/
theorem other (h : P.Fills kind frame trail levels m e Q) (hstarts : Q.Starts inside)
    {kind' : MacroKind} (hkind : kind' ≠ kind) :
    inside.context.frames kind' = replay kind' id trail (P.engine.context.frames kind') := by
  have hentered : P.move kind' = .stay := move_eq_stay hkind (by
    show P.move kind ≠ .stay
    rw [h.invoked]
    exact fun hstay => by cases hstay)
  have hleft : Q.move kind' = .stay := move_eq_stay hkind (by
    show Q.move kind ≠ .stay
    rw [h.stack.1]
    exact fun hstay => by cases hstay)
  rw [hstarts.frames, hleft, h.frames, hentered]
  rfl

end Processing.Fills

/-- **The content of a slot runs in the scope of the invocation's caller.**  Let an invocation
be processed while the stack of its kind was `F`, and let a slot of this kind inside, at any
depth, belong to it.  The slot stands for the body of the invocation; this body is walked
from just `F` on, so a name in it finds no argument of the invocation or of those between it
and the slot; and behind the slot all stacks are as they were before it. -/
theorem slot_content_scope {P Q : Processing} {kind : MacroKind} {frame : Frame}
    {trail : List Processing} {levels : Nat} {m : Modifier} {e : Engine}
    (h : P.Fills kind frame trail levels m e Q) :
    Q.nodes = frame.content ∧
    (∀ inside, Q.Starts inside →
      inside.context.frames kind = P.engine.context.frames kind ∧
      ∀ trail' u, Visit.Reaches ⟨levels, Q.nodes, inside⟩ trail' u →
        u.engine.context.frames kind
          = replay kind id trail' (P.engine.context.frames kind) ∧
        ((∀ R ∈ trail', R.move kind = .stay) → ∀ name,
          Frame.findArgument? name (u.engine.context.frames kind)
            = Frame.findArgument? name (P.engine.context.frames kind))) ∧
    ∀ r after, expandGenerated (process levels) m e = .ok (r, after) →
      after.context.frames = e.context.frames := by
  refine ⟨h.nodes, fun inside hstarts => ⟨h.own hstarts, fun trail' u hreached => ?_⟩, ?_⟩
  · have hframes := hreached.frames kind
    rw [h.own hstarts] at hframes
    refine ⟨hframes, fun hstay name => ?_⟩
    rw [hframes, replay_of_stay hstay]
  · intro r after hrun
    exact ((upholds_expandGenerated upholds_frames (keepsFrames_process levels)
      trivial).of_ok hrun).keeps

/-! ### A slot that is passed on -/

namespace PassedOn

def slot : Modifier :=
  Modifier.ofHead { Builtin.modifier "slot" .block .none (.slot .block) with
    alwaysExpands := true } ⟨0, 1⟩ [⟨⟨0, 1⟩, [], some "s"⟩]

/-- A use of a definition of either kind, with a parameter, in whose body the slot stands. -/
def middle (kind : MacroKind) : Modifier :=
  Modifier.ofHead (.custom kind "q" ["x"] "" [.modifier slot]) ⟨0, 1⟩ [⟨⟨0, 1⟩, [], some "1"⟩]

/-- A use of a definition with slot `s`, in whose body the other use stands. -/
def outer (kind : MacroKind) : Modifier :=
  { Modifier.ofHead (.custom .block "p" [] "s" [.modifier (middle kind)]) ⟨0, 1⟩ [] with
    content := [.text ⟨0, 3⟩ "abc"] }

/-- An invocation that was being processed before. -/
def around : Frame := ⟨"", "o", .empty, []⟩

/-- The invocation whose slot is named `s`. -/
def entered : Frame := ⟨"s", "p", .empty, [.text ⟨0, 3⟩ "abc"]⟩

/-- The invocation that lies between it and its slot. -/
def between : Frame := ⟨"", "q", .ofList [("x", "1")], []⟩

/-- These invocations are being processed, at these places. -/
def engine (block inline : List Frame) (referring : List Span) : Engine :=
  { Engine.start ((Context.mk .empty .empty .vacant 0).withMacros
      { MacroState.initial with blockFrames := block, inlineFrames := inline }) with
    referring := referring }

def atSlot : MacroKind → Engine
  | .block => engine [between, entered, around] [] [⟨0, 1⟩, ⟨0, 1⟩]
  | .inline => engine [entered, around] [between] [⟨0, 1⟩, ⟨0, 1⟩]

def inContent : MacroKind → Engine
  | .block => engine [around] [] [⟨0, 1⟩, ⟨0, 1⟩, ⟨0, 1⟩]
  | .inline => engine [around] [between] [⟨0, 1⟩, ⟨0, 1⟩, ⟨0, 1⟩]

def ofOuter (kind : MacroKind) : Processing :=
  ⟨outer kind, (some .empty : Option (Dict String)), [.modifier (middle kind)],
    engine [around] [] []⟩

def ofMiddle (kind : MacroKind) : Processing :=
  ⟨middle kind, (some (.ofList [("x", "1")]) : Option (Dict String)), [.modifier slot],
    engine [entered, around] [] [⟨0, 1⟩]⟩

def ofSlot (kind : MacroKind) : Processing :=
  ⟨slot, SlotState.resolved 1 [], [.text ⟨0, 3⟩ "abc"], atSlot kind⟩

theorem processes_middle (kind : MacroKind) :
    (middle kind).Processes 2 (engine [entered, around] [] [⟨0, 1⟩]) (ofMiddle kind) :=
  ⟨_, _, _, _, _, _, _, ⟨rfl, _, rfl, rfl, rfl⟩, rfl, rfl,
    @Modifier.Decides.intro _ _ _ _ _ (.replace _) _ _ rfl rfl fun h => by cases h⟩

theorem starts_middle (kind : MacroKind) : (ofMiddle kind).Starts (atSlot kind) := by
  cases kind <;> exact ⟨List.cons_ne_nil _ _, _, _, rfl, rfl⟩

theorem processes_slot (kind : MacroKind) : slot.Processes 1 (atSlot kind) (ofSlot kind) := by
  cases kind <;> exact ⟨_, _, _, _, _, _, _, ⟨rfl, _, rfl, rfl, rfl⟩, rfl, rfl,
    @Modifier.Decides.intro _ _ _ _ _ (.replace _) _ _ rfl rfl fun h => by cases h⟩

theorem starts_slot (kind : MacroKind) : (ofSlot kind).Starts (inContent kind) := by
  cases kind <;> exact ⟨List.cons_ne_nil _ _, _, _, rfl, rfl⟩

theorem fills (kind : MacroKind) :
    (ofOuter kind).Fills .block entered [ofMiddle kind] 1 slot (atSlot kind) (ofSlot kind) where
  invoked := rfl
  reached := ⟨3, engine [entered, around] [] [⟨0, 1⟩], _, ⟨List.cons_ne_nil _ _, _, _, rfl, rfl⟩,
    .ask .start (.replacement ⟨rfl, [], [], _, rfl, rfl⟩ (processes_middle kind)
      (starts_middle kind)),
    ⟨rfl, [], [], _, rfl, rfl⟩⟩
  processed := processes_slot kind
  owned := ⟨1, by cases kind <;> exact ⟨rfl, rfl⟩⟩

end PassedOn

/-- The slot of an invocation that lies behind another one. -/
theorem slot_content_scope_passedOn :
    (PassedOn.ofOuter .block).Fills .block PassedOn.entered [PassedOn.ofMiddle .block] 1
      PassedOn.slot (PassedOn.atSlot .block) (PassedOn.ofSlot .block) ∧
    (PassedOn.ofSlot .block).Starts (PassedOn.inContent .block) ∧
    (PassedOn.inContent .block).context.frames .block = [PassedOn.around] :=
  ⟨PassedOn.fills .block, PassedOn.starts_slot .block,
    ((slot_content_scope (PassedOn.fills .block)).2.1 _ (PassedOn.starts_slot .block)).1⟩

/-! ### What names stand for in the content of a slot -/

/-- The value of a name if these are the invocations being processed. -/
def Context.bindingIn? (cx : Context) (frames : MacroKind → List Frame) (name : String) :
    Option String :=
  (Frame.findArgument? name (frames .inline ++ frames .block)).or (cx.bindings.get? name)

def Resolution.ofBinding : Option String → Resolution
  | some text => .value text
  | none => .undefined

theorem resolve_ofBinding {cx : Context} {name : String} {r : Resolution}
    (h : cx.resolve name = .ok r) :
    r = .deferred ∨ r = .ofBinding (cx.bindingIn? cx.frames name) := by
  cases hs : cx.macros with
  | error fault =>
    rw [Context.resolve, hs] at h
    cases h
  | ok s =>
    have hbinding : cx.bindingIn? cx.frames name = cx.binding? s name := by
      rw [Context.frames_of_macros hs]
      rfl
    rw [resolve_eq hs] at h
    cases h
    rw [hbinding, Context.resolution]
    split
    · exact .inl rfl
    · refine .inr ?_
      cases cx.binding? s name <;> rfl

/-- **What a name in the content of a slot stands for** follows from the invocations of the
slot's kind that the caller saw, those of the other kind that the slot finds, and the
variables as they are.  So it is what the caller saw, unless on the way to the slot an
invocation of the other kind was entered or set aside. -/
theorem slot_content_resolution {P Q : Processing} {kind : MacroKind} {frame : Frame}
    {trail trail' : List Processing} {levels : Nat} {m : Modifier} {e inside : Engine}
    {u : Visit} (h : P.Fills kind frame trail levels m e Q) (hstarts : Q.Starts inside)
    (hreached : Visit.Reaches ⟨levels, Q.nodes, inside⟩ trail' u)
    (hown : ∀ R ∈ trail', ∀ kind', R.move kind' = .stay) {name : String} {r : Resolution}
    (hr : u.engine.context.resolve name = .ok r) (hknown : r ≠ .deferred) :
    r = .ofBinding (u.engine.context.bindingIn? (fun kind' =>
        if kind' = kind then P.engine.context.frames kind'
        else replay kind' id trail (P.engine.context.frames kind')) name) ∧
    ((∀ R ∈ trail, ∀ kind', kind' ≠ kind → R.move kind' = .stay) →
      r = .ofBinding (u.engine.context.bindingIn? P.engine.context.frames name)) := by
  have hframes : u.engine.context.frames = fun kind' =>
      if kind' = kind then P.engine.context.frames kind'
      else replay kind' id trail (P.engine.context.frames kind') := by
    funext kind'
    rw [hreached.frames, replay_of_stay fun R hR => hown R hR kind']
    split
    · rename_i heq
      subst heq
      exact h.own hstarts
    · exact h.other hstarts (by assumption)
  have hvalue := (resolve_ofBinding hr).resolve_left hknown
  rw [hframes] at hvalue
  refine ⟨hvalue, fun hstay => ?_⟩
  rw [hvalue]
  have hcaller : (fun kind' => if kind' = kind then P.engine.context.frames kind'
      else replay kind' id trail (P.engine.context.frames kind')) = P.engine.context.frames := by
    funext kind'
    split
    · rfl
    · exact replay_of_stay fun R hR => hstay R hR kind' (by assumption)
  rw [hcaller]

/-- Behind an inline invocation the content of a block slot finds the argument `x` of that
invocation, for which its caller has no value. -/
theorem slot_content_resolution_passedOn :
    (PassedOn.ofOuter .inline).Fills .block PassedOn.entered [PassedOn.ofMiddle .inline] 1
      PassedOn.slot (PassedOn.atSlot .inline) (PassedOn.ofSlot .inline) ∧
    (PassedOn.ofSlot .inline).Starts (PassedOn.inContent .inline) ∧
    (PassedOn.inContent .inline).context.resolve "x" = .ok (.value "1") ∧
    .value "1" = Resolution.ofBinding ((PassedOn.inContent .inline).context.bindingIn?
      (fun kind => if kind = .block then [PassedOn.around]
        else replay kind id [PassedOn.ofMiddle .inline] []) "x") ∧
    (PassedOn.inContent .inline).context.bindingIn?
      (PassedOn.ofOuter .inline).engine.context.frames "x" = none := by
  have hresolve : (PassedOn.inContent .inline).context.resolve "x" = .ok (.value "1") := rfl
  refine ⟨PassedOn.fills .inline, PassedOn.starts_slot .inline, hresolve, ?_, rfl⟩
  refine Eq.trans (slot_content_resolution (PassedOn.fills .inline) (PassedOn.starts_slot .inline)
    .start (fun R hR => by cases hR) hresolve (fun h => by cases h)).1 ?_
  congr 2
  funext kind
  cases kind <;> rfl

end MacroMarkup
