import MacroMarkup.Document.Strip
import MacroMarkup.Proofs.Spelling
import MacroMarkup.Proofs.Steady

/-!
# Asking for the value of a name

`[/$x]` and `[/print $(x)]` ask for the value of a name.  Where the name is a parameter of a
definition that is being read they wait; where it has a value they become that text.

* `Modifier.Asks`: the modifier waits and stands for the value of a name.
* `ensures_readModifier_whole`, `ensures_expandGenerated_whole`: the life of a modifier without
  a body, where it is read and in generated content.
* `Modifier.Asks.ensures_expandRead`, `Modifier.Asks.ensures_expandGenerated`: what becomes of a
  modifier that asks.
* `flatText?`: the text of nodes that are nothing but text.
-/

namespace MacroMarkup

def Builtin.reference : Definition :=
  { modifier "$" .inline .none .reference with stamp := 3, alwaysExpands := true }

def Builtin.print : Definition := { modifier "print" .inline .none .print with stamp := 4 }

theorem Builtin.findLongest?_reference (text : List Char) :
    configuration.inlines.findLongest?
      (fun name => name.toList.isPrefixOf (reference.name.toList ++ text)) = some reference := rfl

theorem Builtin.findLongest?_print (text : List Char) :
    configuration.inlines.findLongest?
      (fun name => name.toList.isPrefixOf (print.name.toList ++ text)) = some print := rfl

/-- The modifier waits and stands for the value of a name. -/
inductive Modifier.Asks (name : String) : Modifier → Prop
  | reference (span head : Span) {a : Argument} (ha : a.value = some name) :
      Asks name ⟨span, head, Builtin.reference, [a], [], none⟩
  | print (span head inside part : Span) {inner : Argument} (hinner : inner.value = some name) :
      Asks name ⟨span, head, Builtin.print,
        [⟨inside, [.interpolation part Builtin.interpolator inner none], none⟩], [], none⟩

def flatText? : List Node → Option String
  | [] => some ""
  | .text _ content :: rest => (flatText? rest).map (content ++ ·)
  | _ :: _ => none

theorem flatText?_append (a b : List Node) :
    flatText? (a ++ b) = (flatText? a).bind fun s => (flatText? b).map (s ++ ·) := by
  induction a with
  | nil => cases h : flatText? b <;> simp [flatText?, h]
  | cons node rest ih =>
    cases node with
    | text span content =>
      simp only [List.cons_append, flatText?, ih]
      cases flatText? rest <;> cases flatText? b <;> simp [String.append_assoc]
    | _ => rfl

/-! ### Modifiers without a body -/

section Whole

open Parse

variable {e : Engine} {r : Reader} {text : List Char} {kind : ModifierKind} {d : Definition}

/-- A modifier without a body is expanded right behind its head. -/
theorem ensures_readModifier_whole {fuel : Nat} {post : Modifier × Bool → Reader → Prop}
    {ended : Bool} {evaluated : List Argument → Prop}
    (hd : d.behaviour.lifecycle.SkipsBody) (hwhole : (d.isMarker || ended) = true)
    (hhead : Ensures anyFault (readHead kind) r fun head r' => r'.Faces e text ∧
      ∃ span arguments, head = ⟨.ofHead d span arguments, ended⟩ ∧ evaluated arguments)
    (hlife : ∀ span arguments, evaluated arguments →
      Ensures anyFault (expandRead (process e.levels) (.ofHead d span arguments)
        d.behaviour.lifecycle.idle) e fun answer e' =>
          ∀ r', r'.Faces e' text → post (answer.1, true) r') :
    Ensures anyFault (readModifier (fuel + 1) kind) r post := by
  rw [ensures_readModifier_iff]
  refine hhead.mono ?_
  rintro _ r₁ ⟨h₁, span, arguments, rfl, hevaluated⟩
  have hsame : { r₁.engine.emit [] with
      delayDepth := (r₁.engine.emit []).delayDepth + d.delaysContent.toNat
        - d.delaysContent.toNat } = e := by
    rw [Nat.add_sub_cancel, h₁.engine]
    rfl
  simp only [Modifier.ofHead, ensures_reporting, hd.before, ensures_pure]
  cases fuel with
  | zero => exact trivial
  | succ fuel =>
    have hwhole' : Head.isWhole ⟨⟨span, span, d, arguments, [], none⟩, ended⟩ = true := hwhole
    rw [readBody]
    simp only [hwhole', if_true, ensures_pure, wholeSpan, ensures_inContext, hd.after]
    subst hsame
    exact (hlife span arguments hevaluated).mono fun answer e' hanswer => hanswer _ h₁.run

end Whole


/-! ### Asking for a value -/

theorem checkArguments?_of_values {m : Modifier} {words : List String} {least : Nat}
    {most : Option Nat} (hm : m.arguments.map Argument.value = words.map some)
    (hleast : least ≤ words.length) (hmost : ∀ limit, most = some limit → words.length ≤ limit) :
    checkArguments? m least most = none := by
  have hlength : m.arguments.length = words.length := by
    simpa using congrArg List.length hm
  have hvalues : m.arguments.find? (·.value.isNone) = none := by
    refine List.find?_eq_none.mpr fun a ha => ?_
    obtain ⟨word, -, hword⟩ := List.mem_map.mp (hm ▸ List.mem_map_of_mem ha)
    simp [← hword]
  rw [checkArguments?, hvalues]
  exact checkCount?_eq_none_iff.mpr ⟨by omega, fun limit h => by rw [hlength]; exact hmost limit h⟩

theorem texts_of_values {arguments : List Argument} {words : List String}
    (h : arguments.map Argument.value = words.map some) : arguments.map Argument.text = words := by
  calc arguments.map Argument.text = (arguments.map Argument.value).map (·.getD "") := by
        rw [List.map_map]
        rfl
    _ = words := by simp [h, Function.comp_def]

section Asking

variable {e : Engine} {cx : Context} {name value : String} {m : Modifier} {found : Resolution}

theorem ensures_prepare_reference {a : Argument} {immediate : Bool} (hm : m.arguments = [a])
    (ha : a.value = some name) (hne : name ≠ "") (hname : cx.resolve name = .ok found)
    {post : Option String × List Message → Context → Prop}
    (hvalue : ∀ text, found = .value text → post (some text, []) cx)
    (hmissing : (∀ text, found ≠ .value text) →
      post (none, if immediate then [(Problem.undefinedVariable name).message a.span] else []) cx) :
    Ensures anyFault (referenceLifecycle.prepare m none immediate) cx post := by
  have htext : a.text = name := by rw [Argument.text, ha]; rfl
  have hvalues : m.arguments.map Argument.value = [name].map some := by simp [hm, ha]
  have hcheck : checkArguments? m 1 (some 1) = none :=
    checkArguments?_of_values hvalues (Nat.le_refl _) (by simp)
  have hname' : name.isEmpty = false := by simpa using hne
  simp only [referenceLifecycle, hcheck, hm, htext, hname', Bool.false_eq_true, if_false,
    ensures_bind, ensures_of_eq (Step.resolve_of_ok hname)]
  cases found with
  | value text => exact hvalue text rfl
  | undefined => exact hmissing fun _ h => by cases h
  | deferred => exact hmissing fun _ h => by cases h

theorem ensures_prepare_print {words : List String} {state : String} {immediate : Bool}
    (hm : m.arguments.map Argument.value = words.map some)
    {post : String × List Message → Context → Prop} (hpost : post (String.join words, []) cx) :
    Ensures anyFault (printLifecycle.prepare m state immediate) cx post := by
  have hcheck : checkArguments? m 0 none = none :=
    checkArguments?_of_values hm (Nat.zero_le _) fun _ h => by cases h
  simp only [printLifecycle, hcheck, texts_of_values hm]
  exact hpost

theorem ensures_expand_print {state : String} {immediate : Bool}
    {post : Outcome × String → Context → Prop} :
    Ensures anyFault (printLifecycle.expand m state immediate) cx post
      ↔ post (.replace (if state.isEmpty then [] else [.text m.span state]), state) cx := by
  simp only [printLifecycle]
  split
  · exact Iff.rfl
  · exact Iff.rfl

/-- What an interpolation stands for at a place where its name can be resolved. -/
theorem ensures_expandInterpolation {part : Span} {inner inner' : Argument}
    {post : Entity × Option String → Engine → Prop}
    (hinner : expandArgument inner e = .ok ((inner', some name), e))
    (hname : e.context.resolve name = .ok found) (hbound : found ≠ .undefined)
    (hvalue : ∀ value, found = .value value →
      post (.interpolation part Builtin.interpolator inner' (some value), some value) e)
    (hdeferred : found = .deferred →
      post (.interpolation part Builtin.interpolator inner' none, none) e) :
    Ensures anyFault (expandEntity (.interpolation part Builtin.interpolator inner none)) e
      post := by
  have halways : Builtin.interpolator.alwaysExpands = true := rfl
  rw [expandEntity, ensures_bind, ensures_of_eq hinner]
  simp only [ensures_bind, ensures_immediate, halways, Bool.not_true,
    Bool.and_false, Bool.false_eq_true, if_false, ensures_inContext,
    ensures_of_eq (Step.resolve_of_ok hname)]
  cases found with
  | value text => exact hvalue text rfl
  | undefined => exact absurd rfl hbound
  | deferred => exact hdeferred rfl

/-- At a visit that is not immediate a modifier that asks for a parameter waits. -/
theorem Modifier.Asks.ensures_expandRead {walk : Walk} (hm : m.Asks name) (hne : name ≠ "")
    (hlater : e.immediate = false) (hname : e.context.resolve name = .ok .deferred) :
    Ensures anyFault (expandRead walk m m.definition.behaviour.lifecycle.idle) e fun answer e' =>
      e' = e ∧ answer.1 = m := by
  cases hm with
  | @reference span head a ha =>
    have halways : Builtin.reference.alwaysExpands = true := rfl
    refine ensures_expandRead_iff.mpr ⟨fun halone => by simp [halways] at halone, fun _ => ?_⟩
    simp only [ensures_finishModifier_iff, hlater, ensures_reporting, ensures_inContext]
    refine ensures_prepare_reference rfl ha hne hname (fun _ h => by cases h) fun _ => ?_
    exact ⟨rfl, trivial⟩
  | @print span head inside part inner hinner =>
    refine ensures_expandRead_iff.mpr ⟨fun _ => ⟨rfl, rfl⟩, fun hhere => ?_⟩
    exact absurd (by rw [hlater]; rfl) hhere

/-- Nothing happens around what a modifier stands for, so it is left as it is where walking it
does nothing. -/
theorem ensures_processNodes_quiet {walk : Walk} {outermost : Bool}
    {state : m.definition.behaviour.lifecycle.State} {nodes : List Node}
    (hbefore : ∀ state, m.definition.behaviour.lifecycle.beforeProcessing m state = pure state)
    (hafter : ∀ state, m.definition.behaviour.lifecycle.afterProcessing state = pure ())
    (hwalk : ∀ e, walk nodes e = .ok ((nodes, true), e)) :
    Ensures anyFault (processNodes walk outermost m state nodes) e fun answer e' =>
      answer = (nodes, true) ∧ e' = e := by
  rw [ensures_processNodes_iff]
  refine ⟨fun hempty => ⟨by rw [List.isEmpty_iff.mp hempty], rfl⟩, fun _ => ?_⟩
  simp only [hbefore, hafter, ensures_inContext, ensures_pure, ensures_of_eq (hwalk _)]
  rw [ensures_leaveReplacement rfl]
  exact ⟨fun hfails => absurd hfails Bool.false_ne_true, fun _ => ⟨trivial, rfl⟩⟩

/-- A waiting modifier without a body, in generated content: its arguments are evaluated and it
is expanded. -/
theorem ensures_expandGenerated_whole {walk : Walk} {d : Definition} {span head : Span}
    {arguments : List Argument} {evaluated : List Argument → Prop}
    {post : Modifier × Bool → Engine → Prop} (hd : d.behaviour.lifecycle.SkipsBody)
    (hnow : e.immediate = true)
    (hvalues : Ensures anyFault (expandArguments arguments) e fun arguments' e' =>
      e' = e ∧ evaluated arguments')
    (hfinish : ∀ arguments', evaluated arguments' → Ensures anyFault
      (finishModifier walk false ⟨span, head, d, arguments', [], none⟩ d.behaviour.lifecycle.idle)
      e post) :
    Ensures anyFault (expandGenerated walk ⟨span, head, d, arguments, [], none⟩) e post := by
  refine ensures_expandGenerated_iff.mpr ⟨fun hsome => absurd hsome Bool.false_ne_true,
    fun _ => hvalues.mono ?_⟩
  rintro arguments' _ ⟨rfl, hevaluated⟩
  refine ⟨fun halone => by simp [hnow] at halone, fun _ => ?_⟩
  simp only [ensures_reporting, hd.before, ensures_pure, Engine.emit_nil]
  refine ensures_walkContent_iff.mpr ⟨fun _ => ?_, fun hsome => absurd rfl hsome⟩
  simp only [ensures_inContext, hd.after, ensures_pure]
  exact hfinish arguments' hevaluated

/-- A modifier that is replaced in silence at an immediate visit. -/
theorem ensures_finishModifier_replaced {walk : Walk} {outermost : Bool}
    {state : m.definition.behaviour.lifecycle.State} {post : Modifier × Bool → Engine → Prop}
    (hnow : e.immediate = true)
    (hfinish : Ensures anyFault (m.definition.behaviour.lifecycle.prepare m state true) e.context
      fun prepared cx => cx = e.context ∧ prepared.2 = [] ∧
        Ensures anyFault (m.definition.behaviour.lifecycle.expand m prepared.1 true) e.context
          fun decided cx' => ∃ nodes, decided.1 = .replace nodes ∧
            Ensures anyFault (processNodes walk outermost m decided.2 nodes)
              { e with context := cx' } fun answer e' =>
                post ({ m with expansion := some answer.1 }, answer.2) e') :
    Ensures anyFault (finishModifier walk outermost m state) e post := by
  simp only [ensures_finishModifier_iff, hnow, ensures_reporting, ensures_inContext]
  refine hfinish.mono ?_
  rintro ⟨prepared, messages⟩ cx ⟨hcx, hsilent, hexpand⟩
  cases hcx
  cases hsilent
  refine hexpand.mono ?_
  rintro ⟨outcome, state'⟩ cx' ⟨nodes, houtcome, hnodes⟩
  cases houtcome
  exact hnodes.mono fun _ _ h => ⟨fun hfails => absurd hfails Bool.false_ne_true, fun _ => h⟩

theorem skipsBody_reference : Builtin.reference.behaviour.lifecycle.SkipsBody :=
  ⟨fun _ _ => rfl, fun _ => rfl⟩

theorem skipsBody_print : Builtin.print.behaviour.lifecycle.SkipsBody :=
  ⟨fun _ _ => rfl, fun _ => rfl⟩

theorem stripNode_replaced {nodes : List Node} (hkind : m.definition.kind ≠ .system) :
    stripNode (.modifier { m with expansion := some nodes }) = stripNodes nodes :=
  stripNode_expanded (m := { m with expansion := some nodes }) hkind rfl

/-- The nodes stand for a text, and there is nothing in them to expand. -/
structure IsText (levels : Nat) (nodes : List Node) (value : String) : Prop where
  strip : stripNodes nodes = nodes
  text : flatText? nodes = some value
  walk : ∀ e, process (levels + 1) nodes e = .ok ((nodes, true), e)

theorem isText_text {levels : Nat} (span : Span) : IsText levels [.text span value] value :=
  ⟨by simp [stripNodes, stripNode], by simp [flatText?], fun _ => rfl⟩

theorem isText_print {levels : Nat} (span : Span) :
    IsText levels (if value.isEmpty then [] else [.text span value]) value := by
  by_cases hempty : value.isEmpty = true
  · rw [if_pos hempty]
    exact ⟨by simp [stripNodes], by simp [flatText?, String.isEmpty_iff.mp hempty], fun _ => rfl⟩
  · rw [if_neg hempty]
    exact isText_text span

theorem IsText.ensures_processNodes {levels : Nat} {nodes : List Node} {outermost : Bool}
    {state : m.definition.behaviour.lifecycle.State} (h : IsText levels nodes value)
    (hkind : m.definition.kind ≠ .system)
    (hbefore : ∀ state, m.definition.behaviour.lifecycle.beforeProcessing m state = pure state)
    (hafter : ∀ state, m.definition.behaviour.lifecycle.afterProcessing state = pure ()) :
    Ensures anyFault (processNodes (process (levels + 1)) outermost m state nodes) e
      fun answer e' => e' = e ∧ answer.2 = true ∧
        flatText? (stripNode (.modifier { m with expansion := some answer.1 })) = some value := by
  refine (ensures_processNodes_quiet hbefore hafter h.walk).mono ?_
  rintro _ _ ⟨rfl, rfl⟩
  refine ⟨rfl, rfl, ?_⟩
  rw [stripNode_replaced hkind, h.strip, h.text]

/-- **At an immediate visit a modifier that asks for a name becomes its value.** -/
theorem Modifier.Asks.ensures_expandGenerated {levels : Nat} (hm : m.Asks name) (hne : name ≠ "")
    (hnow : e.immediate = true) (hname : e.context.resolve name = .ok (.value value)) :
    Ensures anyFault (expandGenerated (process (levels + 1)) m) e fun answer e' =>
      e' = e ∧ answer.2 = true ∧ flatText? (stripNode (.modifier answer.1)) = some value := by
  cases hm with
  | @reference span head a ha =>
    have hvalues : Ensures anyFault (expandArguments [a]) e fun arguments e' =>
        e' = e ∧ arguments = [a] := by
      rw [expandArguments, ensures_bind, ensures_of_eq (expandArgument_known ha e)]
      exact ⟨rfl, rfl⟩
    refine ensures_expandGenerated_whole skipsBody_reference hnow hvalues ?_
    rintro _ rfl
    refine ensures_finishModifier_replaced hnow
      (ensures_prepare_reference rfl ha hne hname (fun text htext => ?_)
        fun hmissing => absurd rfl (hmissing value))
    cases htext
    exact ⟨rfl, rfl, _, rfl, (isText_text span).ensures_processNodes (fun h => by cases h)
      (fun _ => rfl) fun _ => rfl⟩
  | @print span head inside part inner hinner =>
    have hvalues : Ensures anyFault (expandArguments
        [⟨inside, [.interpolation part Builtin.interpolator inner none], none⟩]) e
        fun arguments e' => e' = e ∧ arguments.map Argument.value = [value].map some := by
      rw [expandArguments, ensures_bind, expandArgument, ensures_bind, expandEntities, ensures_bind]
      refine ensures_expandInterpolation (expandArgument_known hinner e) hname (fun h => by cases h)
        (fun text htext => ?_) fun h => by cases h
      cases htext
      simp only [ensures_bind, expandEntities, ensures_pure, expandArguments, Option.map_some,
        String.append_empty]
      exact ⟨trivial, rfl⟩
    refine ensures_expandGenerated_whole skipsBody_print hnow hvalues ?_
    intro arguments harguments
    refine ensures_finishModifier_replaced hnow (ensures_prepare_print harguments ?_)
    rw [String.join_cons, String.join_nil, String.append_empty]
    exact ⟨rfl, rfl, ensures_expand_print.mpr ⟨_, rfl, (isText_print span).ensures_processNodes
      (fun h => by cases h) (fun _ => rfl) fun _ => rfl⟩⟩

end Asking

end MacroMarkup
