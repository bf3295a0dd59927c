import Mathlib.Data.List.DropRight
import Mathlib.Data.List.FinRange
import MacroMarkup.Proofs.Balance
import MacroMarkup.Proofs.Template

/-!
# Instantiation is substitution

A template is read when it is defined, and then parameters wait, whatever is bound to their
names.  A use of it lays a frame with its arguments on the stack, and in that frame the body
becomes the text with the arguments in place of the parameters.  Behind the use the frame is
gone.

* `Template.ensures_readBlock_definition`: the definition registers a body that yields what is
  meant.
* `Template.resolve_inside`: what parameters stand for in a use.
* `Template.ensures_readBlock_use`, `Template.ensures_readBlocks_uses`: one use, and any number
  of them, are read as paragraphs of what is meant, and nothing else is left of them.
* `instantiation_substitutes`: the whole document.
-/

namespace MacroMarkup

open Parse

/-! ### Values by name -/

namespace Dict

variable {α : Type} {key : String} {value : α}

theorem get?_setAll_of_not_mem {pairs : List (String × α)} (h : key ∉ pairs.map Prod.fst)
    (d : Dict α) : (d.setAll pairs).get? key = d.get? key := by
  induction pairs generalizing d with
  | nil => rfl
  | cons pair rest ih =>
    obtain ⟨other, _⟩ := pair
    rw [List.map_cons, List.mem_cons, not_or] at h
    show ((d.set other _).setAll rest).get? key = _
    rw [ih h.2, get?_set, if_neg (Ne.symm h.1)]

theorem get?_setAll {pairs : List (String × α)} (hnodup : (pairs.map Prod.fst).Nodup)
    (hmem : (key, value) ∈ pairs) (d : Dict α) : (d.setAll pairs).get? key = some value := by
  induction pairs generalizing d with
  | nil => cases hmem
  | cons pair rest ih =>
    rw [List.map_cons, List.nodup_cons] at hnodup
    rcases List.mem_cons.mp hmem with rfl | hmem
    · show ((d.set key value).setAll rest).get? key = _
      rw [get?_setAll_of_not_mem hnodup.1, get?_set, if_pos rfl]
    · exact ih hnodup.2 hmem _

theorem get?_ofList_zip {k : Nat} {name : Fin k → String} (hname : Function.Injective name)
    (value : Fin k → α) (i : Fin k) :
    (ofList ((List.ofFn name).zip (List.ofFn value))).get? (name i) = some (value i) := by
  refine get?_setAll ?_ ?_ _
  · rw [List.map_fst_zip (by simp)]
    exact List.nodup_ofFn_ofInjective hname
  · exact List.mem_iff_getElem.mpr ⟨i, by simp, by simp⟩

end Dict

/-! ### The signature -/

theorem slotNameOf?_word {word : String} (h : IsWord word) : slotNameOf? word = none := by
  obtain ⟨c, rest, hcs⟩ := List.exists_cons_of_ne_nil (by simpa using h.1 : word.toList ≠ [])
  have hc : c ≠ '(' := ne_of_isPlain (h.2 c (hcs ▸ List.mem_cons_self)) rfl
  unfold slotNameOf?
  rw [hcs]
  split
  · rename_i hopen
    exact absurd (List.cons.inj hopen).1 hc
  · rfl

theorem Signature.ofArguments_words {name : Argument} {others : List Argument} {word : String}
    {words : List String} (hname : name.value = some word)
    (hothers : others.map Argument.value = words.map some) (hwords : ∀ w ∈ words, IsWord w) :
    Signature.ofArguments name others = ⟨some word, "", words, [], none⟩ := by
  have hvalues : ∀ a ∈ others, ∃ w ∈ words, a.value = some w := fun a ha => by
    obtain ⟨w, hw, heq⟩ := List.mem_map.mp (hothers ▸ List.mem_map_of_mem (f := Argument.value) ha)
    exact ⟨w, hw, heq.symm⟩
  have hslot : slotOf others = ("", []) := by
    unfold slotOf
    cases hlast : others.getLast? with
    | none => rfl
    | some last =>
      obtain ⟨w, hw, hvalue⟩ := hvalues last (List.mem_of_getLast? hlast)
      simp only [hvalue, slotNameOf?_word (hwords w hw), Option.getD_none]
  have hpending : others.filter (·.value.isNone) = [] := by
    refine List.filter_eq_nil_iff.mpr fun a ha => ?_
    obtain ⟨w, -, hvalue⟩ := hvalues a ha
    simp [hvalue]
  have hempty : "".isEmpty = true := rfl
  simp only [ofArguments, hslot, hempty, if_true, hname, texts_of_values hothers, hpending,
    List.map_nil, List.append_nil]

/-! ### The definition -/

namespace Builtin

def defineBlock : Definition := { definer "define-block" .block with stamp := 0 }

theorem findLongest?_defineBlock (text : List Char) :
    configuration.systems.findLongest?
      (fun name => name.toList.isPrefixOf (defineBlock.name.toList ++ text))
        = some defineBlock := rfl

end Builtin

theorem Context.withMacros_back {cx : Context} {s : MacroState} (hs : cx.macros = .ok s)
    (t : MacroState) : (cx.withMacros t).withMacros s = cx := by
  obtain ⟨configuration, bindings, ⟨⟨_ | macros⟩, counter, label⟩, revision⟩ := cx
  · cases hs
  · cases hs
    rfl

namespace Template

def custom (t : Template) (body : List Node) : Definition :=
  .custom .block "p" (List.ofFn t.parameter) "" body

def define (t : Template) (body : List Node) (cx : Context) : Context :=
  { cx with configuration := cx.configuration.set (t.custom body) }.configurationChanged

/-- The nodes are a paragraph that yields what the template means. -/
def IsBody (t : Template) (body : List Node) : Prop :=
  ∃ span nodes, body = [.paragraph span nodes] ∧
    ∀ value, Yields t.parameter value nodes (t.instantiate value)

variable {t : Template} {e : Engine} {r : Reader} {text rest : List Char} {fuel : Nat}
  {s : MacroState}

theorem parameter_words (t : Template) : ∀ w ∈ List.ofFn t.parameter, IsWord w := by
  intro w hw
  obtain ⟨i, rfl⟩ := List.mem_ofFn.mp hw
  exact t.parameter_word i

/-- While the body is read, parameters wait for their values. -/
theorem delays (t : Template) (hstandard : e.context.IsStandard) :
    { e with
      context := e.context.withMacros
        (s.setDelayed .block (⟨"", List.ofFn t.parameter⟩ :: s.delayed .block))
      delayDepth := e.delayDepth + 1 }.Delays t.parameter where
  later := by simp [Engine.immediate]
  standard := ⟨hstandard.inlines, hstandard.interpolators⟩
  deferred i := by
    rw [resolve_eq (Context.macros_withMacros _ _)]
    have hpending : Context.isPending
        (s.setDelayed .block (⟨"", List.ofFn t.parameter⟩ :: s.delayed .block)) (t.parameter i)
          = true := by
      simp [Context.isPending, MacroState.setDelayed]
    rw [Context.resolution, if_pos hpending]

def signature (t : Template) : Signature := ⟨some "p", "", List.ofFn t.parameter, [], none⟩

theorem ensures_beforeContent {m : Modifier} {immediate : Bool} {cx : Context}
    (hm : m.arguments.map Argument.value = ("p" :: List.ofFn t.parameter).map some)
    (hs : cx.macros = .ok s) {post : Option Signature × List Message → Context → Prop}
    (hpost : post (some t.signature, []) (cx.withMacros
      (s.setDelayed .block (⟨"", List.ofFn t.parameter⟩ :: s.delayed .block)))) :
    Ensures anyFault ((defineLifecycle .block).beforeContent m immediate) cx post := by
  obtain ⟨name, others, hcons, hname, hothers⟩ : ∃ name others, m.arguments = name :: others ∧
      name.value = some "p" ∧ others.map Argument.value = (List.ofFn t.parameter).map some := by
    simpa [List.map_eq_cons_iff] using hm
  have hcount : checkCount? m 1 none = none :=
    checkCount?_eq_none_iff.mpr ⟨by simp [hcons], fun _ h => by cases h⟩
  have hsignature := Signature.ofArguments_words hname hothers t.parameter_words
  simp only [defineLifecycle, hcount, hcons, hsignature, ensures_bind, ensures_modifyMacros hs,
    ensures_pure]
  exact hpost

theorem ensures_afterContent (t : Template) {cx : Context} (hs : cx.macros = .ok s)
    {post : Option Signature → Context → Prop} (hpost : post (some t.signature) cx) :
    Ensures anyFault ((defineLifecycle .block).afterContent (some t.signature))
      (cx.withMacros (s.setDelayed .block (⟨"", List.ofFn t.parameter⟩ :: s.delayed .block)))
      post := by
  have hback : ∀ delayed, (s.setDelayed .block delayed).setDelayed .block (s.delayed .block) = s :=
    fun _ => rfl
  have hslot : t.signature.slotName = "" := rfl
  simp only [defineLifecycle, ensures_bind, ensures_macros (Context.macros_withMacros _ _),
    MacroState.delayed_setDelayed, hslot, ne_eq, not_true, if_false,
    ensures_modifyMacros (Context.macros_withMacros _ _), ensures_pure, hback,
    Context.withMacros_back hs]
  exact hpost

theorem ensures_prepare (t : Template) {m : Modifier} {cx : Context}
    (hfree : cx.configuration.blocks.has "p" = false) :
    Ensures anyFault ((defineLifecycle .block).prepare m (some t.signature) true) cx
      fun prepared cx' => cx' = cx ∧ prepared = (some t.signature, []) := by
  have hname : (t.signature.name.getD "").isEmpty = false := rfl
  have hfree' : ((cx.configuration.modifiers MacroKind.block.modifierKind).has
      (t.signature.name.getD "")) = false := hfree
  simp only [defineLifecycle, Bool.not_true, Bool.false_eq_true, if_false, hname, ensures_bind,
    ensures_get, hfree', ensures_pure]
  exact ⟨trivial, rfl⟩

theorem ensures_expand (t : Template) {m : Modifier} {cx : Context} :
    Ensures anyFault ((defineLifecycle .block).expand m (some t.signature) true) cx
      fun decided cx' => decided.1 = .replace [] ∧ cx' = t.define m.content cx := by
  have hname : (t.signature.name.getD "").isEmpty = false := rfl
  simp only [defineLifecycle, Bool.not_true, Bool.false_eq_true, if_false, hname, Bool.not_false,
    if_true, ensures_bind, ensures_modify, ensures_pure]
  exact ⟨trivial, rfl⟩

theorem definition_append (t : Template) (text : List Char) :
    t.definition ++ text = ModifierKind.system.opening.text.toList ++
      (Builtin.defineBlock.name.toList ++ ([' '] ++ ("p".toList ++
        (((List.ofFn t.parameter).map String.toList).flatMap (':' :: ·) ++
          ']' :: (t.bodySource ++ text))))) := by
  rw [List.flatMap_map]
  show ("[-define-block p".toList ++
    ((List.ofFn t.parameter).flatMap (fun x => ':' :: x.toList) ++ ']' :: t.bodySource)) ++ text = _
  rw [List.append_assoc "[-define-block p".toList,
    List.append_assoc ((List.ofFn t.parameter).flatMap fun x => ':' :: x.toList)]
  rfl

theorem ensures_readHead_definition (t : Template) (hstandard : e.context.IsStandard)
    (hsystems : e.context.configuration.systems = Builtin.configuration.systems)
    (h : r.Faces e (t.definition ++ text)) :
    Ensures anyFault (readHead .system) r fun head r' => r'.Faces e (t.bodySource ++ text) ∧
      ∃ span arguments, head = ⟨.ofHead Builtin.defineBlock span arguments, false⟩ ∧
        arguments.map Argument.value = ("p" :: List.ofFn t.parameter).map some := by
  have hfound : (e.context.configuration.modifiers .system).findLongest?
      (fun name => name.toList.isPrefixOf (Builtin.defineBlock.name.toList ++
        ([' '] ++ ("p".toList ++ (((List.ofFn t.parameter).map String.toList).flatMap (':' :: ·) ++
          ']' :: (t.bodySource ++ text)))))) = some Builtin.defineBlock := by
    show e.context.configuration.systems.findLongest? _ = _
    rw [hsystems]
    exact Builtin.findLongest?_defineBlock _
  have hwords : List.Forall₂ (fun source word => Written source word.toList)
      ((List.ofFn t.parameter).map String.toList) (List.ofFn t.parameter) := by
    rw [List.forall₂_map_left_iff]
    exact List.forall₂_same.mpr fun w hw => written_plain (t.parameter_words w hw).2
  have hp : Written "p".toList "p".toList := written_plain (List.forall_mem_singleton.mpr rfl)
  rw [definition_append] at h
  exact ensures_readHead_named hfound
    (fun r' h' => ensures_readArguments_written hstandard (.inr rfl) [' ']
      (List.forall_mem_singleton.mpr rfl) hp (by decide) hwords h')
    (fun arguments hread => ensures_expandArguments_spelled hread e) h

theorem ensures_readBody_definition {post : List Node × Bool → Reader → Prop} {span : Span}
    {arguments : List Argument} (he : e.Delays t.parameter) (hend : EndsParagraph text rest)
    (h : r.Faces e (t.bodySource ++ text))
    (hpost : ∀ body r', t.IsBody body → r'.Faces e rest → post (body, true) r') :
    Ensures anyFault
      (readBody fuel .system ⟨.ofHead Builtin.defineBlock span arguments, false⟩) r post := by
  obtain ⟨c, others, hsource, hstart⟩ := Piece.source_start t.parameter t.body_ne_nil t.body_words
  have hspacing : isSpacing c = false := by
    rcases hstart with hc | ⟨rfl, -⟩
    · exact isSpacing_of_isPlain hc
    · rfl
  have hbody : t.bodySource ++ text = c :: (others ++ text) := by
    rw [bodySource, hsource]
    rfl
  cases fuel with
  | zero => exact trivial
  | succ fuel =>
    rw [readBody]
    have hopen : Head.isWhole ⟨.ofHead Builtin.defineBlock span arguments, false⟩ = false := rfl
    have hslot : (Modifier.ofHead Builtin.defineBlock span arguments).definition.slot
        ≠ .preformatted := fun h => by cases h
    simp only [hopen, Bool.false_eq_true, if_false, reduceCtorEq, ensures_bind, hslot]
    refine (stands_skipLines_silent h.standsAt ?_).mono fun _ r₁ h₁ => ?_
    · rw [hbody, List.takeWhile_cons_of_neg (by simp [hspacing])]
      exact Nat.zero_le _
    rw [hbody, List.dropWhile_cons_of_neg (by simp [hspacing]), ← hbody] at h₁
    rw [ensures_isAtEnd, h₁.isAtEnd, hbody]
    simp only [List.isEmpty_cons, Bool.false_eq_true, if_false, ensures_bind]
    refine ensures_readBlock_pieces he t.parameter_word t.body_ne_nil t.body_words hend h₁.toFaces
      fun inside nodes r₂ h₂ hnodes => ?_
    exact hpost _ r₂ ⟨inside, nodes, rfl, hnodes⟩ h₂

/-- **The definition of a template** is read in silence and registers its body. -/
theorem ensures_readModifier_definition (t : Template) {post : Modifier × Bool → Reader → Prop}
    (hs : e.context.macros = .ok s) (hnow : e.delayDepth = 0)
    (hstandard : e.context.IsStandard)
    (hsystems : e.context.configuration.systems = Builtin.configuration.systems)
    (hfree : e.context.configuration.blocks.has "p" = false) (hend : EndsParagraph text rest)
    (h : r.Faces e (t.definition ++ text))
    (hpost : ∀ m body r', stripNode (.modifier m) = [] → t.IsBody body →
      r'.Faces { e with context := t.define body e.context } rest → post (m, true) r') :
    Ensures anyFault (readModifier fuel .system) r post := by
  cases fuel with
  | zero => exact trivial
  | succ fuel =>
    rw [ensures_readModifier_iff]
    refine (ensures_readHead_definition t hstandard hsystems h).mono ?_
    rintro _ r₁ ⟨h₁, span, arguments, rfl, hvalues⟩
    simp only [Modifier.ofHead, ensures_reporting, h₁.engine]
    refine ensures_beforeContent hvalues hs ?_
    simp only [Engine.emit_nil]
    refine ensures_readBody_definition (t.delays hstandard) hend h₁.run fun body r₂ hbody h₂ => ?_
    refine ensures_spanFromAny fun whole => ?_
    simp only [ensures_inContext, h₂.engine]
    refine ensures_afterContent t hs ?_
    show Ensures anyFault (expandRead (process e.levels) _ _) e _
    refine ensures_expandRead_now (by simp [Engine.immediate, hnow]) ?_
    refine ensures_finishModifier_replaced (by simp [Engine.immediate, hnow])
      ((ensures_prepare t hfree).mono ?_)
    rintro _ _ ⟨rfl, rfl⟩
    refine ⟨rfl, rfl, (ensures_expand t).mono ?_⟩
    rintro ⟨_, state⟩ _ ⟨rfl, rfl⟩
    refine ⟨[], rfl, ?_⟩
    exact hpost _ body _ rfl hbody h₂.run

theorem ensures_readBlock_definition (t : Template) {post : List Node → Reader → Prop}
    (hs : e.context.macros = .ok s) (hnow : e.delayDepth = 0)
    (hstandard : e.context.IsStandard)
    (hsystems : e.context.configuration.systems = Builtin.configuration.systems)
    (hfree : e.context.configuration.blocks.has "p" = false) (hend : EndsParagraph text rest)
    (h : r.Faces e (t.definition ++ text))
    (hpost : ∀ m body r', stripNode (.modifier m) = [] → t.IsBody body →
      r'.Faces { e with context := t.define body e.context } rest → post [.modifier m] r') :
    Ensures anyFault (readBlock fuel) r post := by
  cases fuel with
  | zero => exact trivial
  | succ fuel =>
    have hopens := h.standsAt
    rw [definition_append] at hopens
    refine stands_readBlock_modifier .system (by decide) hopens fun r₁ h₁ => ?_
    rw [← definition_append] at h₁
    exact t.ensures_readModifier_definition hs hnow hstandard hsystems hfree hend h₁.toFaces hpost

structure Known (t : Template) (body : List Node) (cx : Context) : Prop where
  macros : cx.macros = .ok .initial
  standard : cx.IsStandard
  found : ∃ stamp, ∀ text, cx.configuration.blocks.findLongest?
    (fun name => name.toList.isPrefixOf ("p".toList ++ text)) = some { t.custom body with stamp }

def frame (t : Template) (value : Fin t.arity → String) : Frame where
  slotName := ""
  definition := "p"
  arguments := Dict.ofList ((List.ofFn t.parameter).zip (List.ofFn value))
  content := []

def inside (t : Template) (value : Fin t.arity → String) (span : Span) (e : Engine) : Engine :=
  { e with
    context := e.context.withMacros { MacroState.initial with blockFrames := [t.frame value] }
    referring := span :: e.referring }

/-- In the body of a use parameters have their values, whatever else is bound to their names. -/
theorem resolve_inside (t : Template) (value : Fin t.arity → String) (span : Span) (e : Engine)
    (i : Fin t.arity) :
    (t.inside value span e).context.resolve (t.parameter i) = .ok (.value (value i)) := by
  have hargument : (t.frame value).arguments.get? (t.parameter i) = some (value i) :=
    Dict.get?_ofList_zip t.parameter_injective value i
  show (e.context.withMacros _).resolve _ = _
  rw [resolve_eq (Context.macros_withMacros _ _)]
  simp [Context.resolution, Context.isPending, MacroState.initial, Context.binding?,
    Frame.findArgument?, hargument]

theorem invocation_append (t : Template) (value : Fin t.arity → String) (text : List Char) :
    ∃ first others, List.ofFn value = first :: others ∧
      t.invocation value ++ text = ModifierKind.block.opening.text.toList ++ ("p".toList ++
        (':' :: (escape first ++ ((others.map escape).flatMap (':' :: ·) ++
          ';' :: ']' :: text)))) := by
  obtain ⟨first, others, hvalues⟩ : ∃ first others, List.ofFn value = first :: others :=
    List.exists_cons_of_ne_nil fun h => absurd (List.ofFn_eq_nil_iff.mp h)
      (Nat.pos_iff_ne_zero.mp t.arity_pos)
  refine ⟨first, others, hvalues, ?_⟩
  show ("[.p".toList ++ ((List.ofFn value).flatMap (fun v => ':' :: escape v) ++ ";]".toList))
    ++ text = _
  rw [hvalues, List.append_assoc "[.p".toList,
    List.append_assoc ((first :: others).flatMap fun v => ':' :: escape v), List.flatMap_cons,
    List.flatMap_map, List.append_assoc (':' :: escape first)]
  rfl

theorem ensures_readHead_invocation (t : Template) (value : Fin t.arity → String)
    {body : List Node} {stamp : Nat} (hstandard : e.context.IsStandard)
    (hfound : ∀ text, e.context.configuration.blocks.findLongest?
      (fun name => name.toList.isPrefixOf ("p".toList ++ text))
        = some { t.custom body with stamp := stamp })
    (h : r.Faces e (t.invocation value ++ text)) :
    Ensures anyFault (readHead .block) r fun head r' => r'.Faces e text ∧
      ∃ span arguments,
        head = ⟨.ofHead { t.custom body with stamp := stamp } span arguments, true⟩ ∧
        arguments.map Argument.value = (List.ofFn value).map some := by
  obtain ⟨first, others, hvalues, hsource⟩ := t.invocation_append value text
  have hwritten : ∀ v : String, Written (escape v) v.toList := fun v => written_escaped v.toList
  have hwords : List.Forall₂ (fun source word => Written source word.toList)
      (others.map escape) others := by
    rw [List.forall₂_map_left_iff]
    exact List.forall₂_same.mpr fun v _ => hwritten v
  rw [hsource] at h
  rw [hvalues]
  exact ensures_readHead_named (hfound _)
    (fun r' h' => ensures_readArguments_announced hstandard (.inl rfl) (hwritten first) hwords h')
    (fun arguments hread => ensures_expandArguments_spelled hread e) h

theorem ensures_prepare_use (t : Template) {value : Fin t.arity → String} {body : List Node}
    {m : Modifier} {state : Option (Dict String)} {immediate : Bool} {cx : Context}
    (hm : m.arguments.map Argument.value = (List.ofFn value).map some) :
    Ensures anyFault ((customLifecycle .block "p" (List.ofFn t.parameter) "" body).prepare m state
      immediate) cx fun prepared cx' => cx' = cx ∧
        prepared = (some (t.frame value).arguments, []) := by
  have hcheck : checkArguments? m (List.ofFn t.parameter).length
      (some (List.ofFn t.parameter).length) = none :=
    checkArguments?_of_values hm (by simp) fun limit h => by
      cases h
      simp
  simp only [customLifecycle, hcheck, texts_of_values hm, ensures_pure]
  exact ⟨trivial, rfl⟩

/-- The frame of a use lies on the stack while its body is processed. -/
theorem ensures_beforeProcessing_use (t : Template) {value : Fin t.arity → String}
    {body : List Node} {m : Modifier} {cx : Context} (hm : m.content = [])
    (hs : cx.macros = .ok .initial) {post : Option (Dict String) → Context → Prop}
    (hpost : post (some (t.frame value).arguments)
      (cx.withMacros { MacroState.initial with blockFrames := [t.frame value] })) :
    Ensures anyFault
      ((customLifecycle .block "p" (List.ofFn t.parameter) "" body).beforeProcessing m
        (some (t.frame value).arguments)) cx post := by
  simp only [customLifecycle, ensures_bind, ensures_modifyMacros hs, ensures_pure, hm]
  exact hpost

theorem ensures_afterProcessing_use (t : Template) {value : Fin t.arity → String}
    {body : List Node} {cx : Context} (hs : cx.macros = .ok .initial)
    {post : Unit → Context → Prop} (hpost : post () cx) :
    Ensures anyFault ((customLifecycle .block "p" (List.ofFn t.parameter) "" body).afterProcessing
      (some (t.frame value).arguments))
      (cx.withMacros { MacroState.initial with blockFrames := [t.frame value] }) post := by
  have hframes : ({ MacroState.initial with blockFrames := [t.frame value] } : MacroState).frames
      .block = [t.frame value] := rfl
  have hback : ({ MacroState.initial with blockFrames := [t.frame value] } : MacroState).setFrames
      .block [] = .initial := rfl
  have hslot : (t.frame value).slotName = "" := rfl
  simp only [customLifecycle, Option.isSome_some, if_true, ensures_bind,
    ensures_macros (Context.macros_withMacros _ _), hframes, hslot, ne_eq, not_true, if_false,
    ensures_modifyMacros (Context.macros_withMacros _ _), hback, Context.withMacros_back hs]
  exact hpost

/-- The body of a use becomes a paragraph of the text that is meant. -/
theorem ensures_process_body (t : Template) {value : Fin t.arity → String} {body : List Node}
    (hbody : t.IsBody body) {levels : Nat} (hnow : e.delayDepth = 0) (span : Span) :
    Ensures anyFault (process (levels + 3) body) (t.inside value span e) fun answer e' =>
      e' = t.inside value span e ∧ answer.2 = true ∧ ∃ whole nodes,
        stripNodes answer.1 = [.paragraph whole nodes] ∧
          flatText? nodes = some (t.instantiate value) := by
  obtain ⟨whole, nodes, rfl, hnodes⟩ := hbody
  have hnow' : (t.inside value span e).immediate = true := by
    simp [Engine.immediate, inside, hnow]
  show Ensures anyFault (processEach (process (levels + 2)) [.paragraph whole nodes]) _ _
  rw [ensures_processEach_cons, ensures_processNode_paragraph]
  refine ((hnodes value).ensures_process hnow' (fun i => (t.parameter_word i).1)
    fun i => t.resolve_inside value span e i).mono ?_
  rintro ⟨nodes', complete⟩ _ ⟨rfl, rfl, htext⟩
  exact ⟨rfl, rfl, whole, stripNodes nodes', by simp [stripNodes, stripNode], htext⟩

/-- **A use of the template stands for a paragraph of the text that is meant** and leaves the
engine as it was. -/
theorem ensures_expandRead_use (t : Template) {value : Fin t.arity → String} {body : List Node}
    {stamp levels : Nat} {span : Span} {arguments : List Argument} (hbody : t.IsBody body)
    (hs : e.context.macros = .ok .initial) (hnow : e.delayDepth = 0)
    (hvalues : arguments.map Argument.value = (List.ofFn value).map some) :
    Ensures anyFault (expandRead (process (levels + 3))
      (.ofHead { t.custom body with stamp := stamp } span arguments) none) e fun answer e' =>
        e' = e ∧ ∃ whole nodes, stripNode (.modifier answer.1) = [.paragraph whole nodes] ∧
          flatText? nodes = some (t.instantiate value) := by
  have hnow' : e.immediate = true := by simp [Engine.immediate, hnow]
  refine ensures_expandRead_now hnow' (ensures_finishModifier_replaced hnow'
    ((t.ensures_prepare_use hvalues).mono ?_))
  rintro _ _ ⟨rfl, rfl⟩
  refine ⟨rfl, rfl, body, rfl, ?_⟩
  have hne : body.isEmpty = false := by
    obtain ⟨whole, nodes, rfl, -⟩ := hbody
    rfl
  rw [ensures_processNodes_iff]
  refine ⟨fun hempty => absurd (hne.symm.trans hempty) Bool.false_ne_true, fun _ => ?_⟩
  rw [ensures_inContext]
  refine t.ensures_beforeProcessing_use rfl hs ?_
  refine (t.ensures_process_body hbody hnow span).mono ?_
  rintro ⟨nodes, complete⟩ _ ⟨rfl, rfl, whole, texts, hstrip, htexts⟩
  rw [ensures_leaveReplacement rfl, ensures_inContext]
  refine t.ensures_afterProcessing_use hs ?_
  refine ⟨fun hfails => absurd hfails Bool.false_ne_true, fun _ => ⟨rfl, whole, texts, ?_, htexts⟩⟩
  rw [stripNode_replaced fun h => by cases h]
  exact hstrip

/-- **A use of the template** is read in silence as a paragraph of the text that is meant. -/
theorem ensures_readBlock_use (t : Template) {value : Fin t.arity → String} {body : List Node}
    {post : List Node → Reader → Prop} (hbody : t.IsBody body) (hknown : t.Known body e.context)
    (hnow : e.delayDepth = 0) {levels : Nat} (hlevels : e.levels = levels + 3)
    (h : r.Faces e (t.invocation value ++ text))
    (hpost : ∀ node r', (∃ whole nodes, stripNode node = [.paragraph whole nodes] ∧
      flatText? nodes = some (t.instantiate value)) → r'.Faces e text → post [node] r') :
    Ensures anyFault (readBlock fuel) r post := by
  obtain ⟨stamp, hfound⟩ := hknown.found
  obtain ⟨first, others, -, hsource⟩ := t.invocation_append value text
  cases fuel with
  | zero => exact trivial
  | succ fuel =>
    have hopens := h.standsAt
    rw [hsource] at hopens
    refine stands_readBlock_modifier .block (by decide) hopens fun r₁ h₁ => ?_
    rw [← hsource] at h₁
    cases fuel with
    | zero => exact trivial
    | succ fuel =>
      have hskips : { t.custom body with stamp := stamp }.behaviour.lifecycle.SkipsBody :=
        ⟨fun _ _ => rfl, fun _ => rfl⟩
      refine ensures_readModifier_whole hskips rfl
        (t.ensures_readHead_invocation value hknown.standard hfound h₁.toFaces)
        fun span arguments hvalues => ?_
      rw [hlevels]
      refine (t.ensures_expandRead_use hbody hknown.macros hnow hvalues).mono ?_
      rintro ⟨m, complete⟩ _ ⟨rfl, hmeans⟩
      exact fun r' h' => hpost _ r' hmeans h'

theorem uses_cons (t : Template) (value : Fin t.arity → String)
    (others : List (Fin t.arity → String)) : t.uses (value :: others)
      = "\n\n".toList ++ (t.invocation value ++ t.uses others) := by
  rw [uses, List.flatMap_cons, List.append_assoc]
  rfl

theorem dropWhile_uses (t : Template) (value : Fin t.arity → String)
    (others : List (Fin t.arity → String)) :
    (t.uses (value :: others)).dropWhile isSpacing = t.invocation value ++ t.uses others := by
  obtain ⟨first, rest, -, hsource⟩ := t.invocation_append value (t.uses others)
  rw [uses_cons, hsource]
  rfl

theorem endsParagraph_uses (t : Template) (calls : List (Fin t.arity → String)) :
    EndsParagraph (t.uses calls) ((t.uses calls).dropWhile isSpacing) := by
  cases calls with
  | nil => exact .source
  | cons value others =>
    obtain ⟨first, rest, -, hsource⟩ := t.invocation_append value (t.uses others)
    rw [uses_cons, hsource]
    exact .block _

/-- The node is a paragraph of nothing but the text that a use means. -/
def Means (t : Template) (value : Fin t.arity → String) (node : Node) : Prop :=
  ∃ span nodes, node = .paragraph span nodes ∧ flatText? nodes = some (t.instantiate value)

/-- **Uses behind one another** are read each as a paragraph of the text that it means. -/
theorem ensures_readBlocks_uses (t : Template) {body : List Node} (hbody : t.IsBody body)
    (hknown : t.Known body e.context) (hnow : e.delayDepth = 0) {levels : Nat}
    (hlevels : e.levels = levels + 3) (calls : List (Fin t.arity → String)) :
    ∀ {fuel : Nat} {before : List Node} {r : Reader},
      r.Faces e ((t.uses calls).dropWhile isSpacing) →
      Ensures anyFault (readBlocks fuel before) r fun content r' => r'.engine = e ∧
        ∃ nodes, content = before.reverse ++ nodes ∧
          List.Forall₂ (fun node value => t.Means value node) (stripNodes nodes) calls := by
  induction calls with
  | nil =>
    intro fuel before r h
    cases fuel with
    | zero => exact trivial
    | succ fuel =>
      refine (ensures_readBlocks_done h.rest).mono ?_
      rintro _ _ ⟨rfl, rfl⟩
      exact ⟨h.engine, [], by simp, by simp [stripNodes]⟩
  | cons value others ih =>
    intro fuel before r h
    rw [dropWhile_uses] at h
    have hne : t.invocation value ++ t.uses others ≠ [] := by
      obtain ⟨first, rest, -, hsource⟩ := t.invocation_append value (t.uses others)
      rw [hsource]
      exact List.cons_ne_nil _ _
    cases fuel with
    | zero => exact trivial
    | succ fuel =>
      refine ensures_readBlocks_more (h.rest ▸ hne) ?_
      refine t.ensures_readBlock_use hbody hknown hnow hlevels h fun node r₁ hnode h₁ => ?_
      obtain ⟨span, texts, hstrip, htexts⟩ := hnode
      refine (stands_skipWhile_over (p := isSpacing) h₁.standsAt).mono fun _ r₂ h₂ => ?_
      refine (ih h₂.toFaces).mono ?_
      rintro _ r₃ ⟨hengine, nodes, rfl, hnodes⟩
      refine ⟨hengine, node :: nodes, by simp, ?_⟩
      rw [stripNodes, hstrip]
      exact .cons ⟨span, texts, rfl, htexts⟩ hnodes

end Template

/-! ### The document -/

/-- An entry that is put in is the longest that passes a test that no other entry passes. -/
theorem Registry.findLongest?_set {α : Type} [Named α] {r : Registry α} {x : α}
    {test : String → Bool} (hx : test (Named.name x) = true)
    (hothers : ∀ layer ∈ r.layers, ∀ y ∈ layer, test (Named.name y) = false) :
    (r.set x).findLongest? test = some x := by
  have hbelow : ∀ layers : List (Layer α),
      (∀ layer ∈ layers, ∀ y ∈ layer, test (Named.name y) = false) →
      findLongestIn? test layers = none := by
    intro layers h
    induction layers with
    | nil => rfl
    | cons layer rest ih =>
      have hfind : layer.byLength.find? (fun y => test (Named.name y)) = none :=
        List.find?_eq_none.mpr fun y hy => by simp [h layer List.mem_cons_self y (.inr hy)]
      rw [findLongestIn?_cons, hfind, ih fun l hl => h l (List.mem_cons_of_mem _ hl)]
      rfl
  have hsortIn : ∀ entries : List α, (∀ y ∈ entries, test (Named.name y) = false) →
      (Layer.sortIn x entries).find? (fun y => test (Named.name y)) = some x := by
    intro entries h
    induction entries with
    | nil => simp [Layer.sortIn, hx]
    | cons y rest ih =>
      have hrest := ih fun z hz => h z (List.mem_cons_of_mem _ hz)
      rw [Layer.sortIn]
      split
      · rw [List.find?_cons, h y List.mem_cons_self]
        exact hrest
      · rw [List.find?_cons, hx]
  have htop : (Layer.set r.top x).byLength.find? (fun y => test (Named.name y)) = some x := by
    unfold Layer.set
    split
    · exact hsortIn _ fun y hy =>
        hothers r.top List.mem_cons_self y (.inr (List.mem_of_mem_filter hy))
    · exact hsortIn _ fun y hy => hothers r.top List.mem_cons_self y (.inr hy)
  show findLongestIn? test (Layer.set r.top x :: r.below) = some x
  rw [findLongestIn?_cons, htop, hbelow _ fun l hl => hothers l (List.mem_cons_of_mem _ hl)]
  rfl

theorem Builtin.names_blocks : configuration.blocks.layers.map
    (fun layer : Layer Definition => (layer.byName ++ layer.byLength).map (·.name))
    = [["raw", "slot", "ifdef", "ifndef", "module", "use",
      "ifndef", "module", "ifdef", "slot", "raw", "use"]] := rfl

theorem Builtin.not_has_block : configuration.blocks.has "p" = false := rfl

/-- No block of the language has a name that starts like the one of a template. -/
theorem Builtin.not_isPrefixOf_block {layer : Layer Definition}
    (hlayer : layer ∈ configuration.blocks.layers) {d : Definition} (hd : d ∈ layer)
    (text : List Char) : d.name.toList.isPrefixOf ("p".toList ++ text) = false := by
  have hnames : (layer.byName ++ layer.byLength).map (·.name) ∈ configuration.blocks.layers.map
      (fun layer : Layer Definition => (layer.byName ++ layer.byLength).map (·.name)) :=
    List.mem_map_of_mem hlayer
  rw [names_blocks, List.mem_singleton] at hnames
  have hname : d.name ∈ ["raw", "slot", "ifdef", "ifndef", "module", "use",
      "ifndef", "module", "ifdef", "slot", "raw", "use"] :=
    hnames ▸ List.mem_map_of_mem (List.mem_append.mpr hd)
  generalize d.name = name at hname
  simp only [List.mem_cons, List.not_mem_nil, or_false] at hname
  rcases hname with rfl | rfl | rfl | rfl | rfl | rfl | rfl | rfl | rfl | rfl | rfl | rfl <;> rfl

namespace Template

variable {cx : Context}

theorem known_define (t : Template) (body : List Node)
    (hblocks : cx.configuration.blocks = Builtin.configuration.blocks)
    (hs : cx.macros = .ok .initial) (hstandard : cx.IsStandard) :
    t.Known body (t.define body cx) where
  macros := hs
  standard := ⟨hstandard.inlines, hstandard.interpolators⟩
  found := by
    refine ⟨cx.configuration.nextStamp, fun text => ?_⟩
    show (cx.configuration.blocks.set _).findLongest? _ = _
    rw [hblocks]
    exact Registry.findLongest?_set (List.isPrefixOf_iff_prefix.mpr (List.prefix_append _ _))
      fun layer hlayer d hd => Builtin.not_isPrefixOf_block hlayer hd text

theorem ensures_readSource (t : Template) {e : Engine} {r : Reader} (fuel : Nat)
    (hblocks : e.context.configuration.blocks = Builtin.configuration.blocks)
    (hsystems : e.context.configuration.systems = Builtin.configuration.systems)
    (hs : e.context.macros = .ok .initial) (hstandard : e.context.IsStandard)
    (hnow : e.delayDepth = 0) {levels : Nat} (hlevels : e.levels = levels + 3)
    (calls : List (Fin t.arity → String)) (h : r.Faces e (t.definition ++ t.uses calls)) :
    Ensures anyFault (readSource fuel) r fun content r' =>
      (∃ body, r'.engine = { e with context := t.define body e.context }) ∧
        List.Forall₂ (fun node value => t.Means value node) (stripNodes content) calls := by
  have hspacing : (t.definition ++ t.uses calls).dropWhile isSpacing
      = t.definition ++ t.uses calls := by
    rw [definition_append]
    rfl
  have hne : t.definition ++ t.uses calls ≠ [] := by
    rw [definition_append]
    exact List.cons_ne_nil _ _
  rw [readSource, ensures_bind]
  refine (stands_skipWhile_over (p := isSpacing) h.standsAt).mono fun _ r₁ h₁ => ?_
  rw [hspacing] at h₁
  rw [ensures_bind]
  cases fuel with
  | zero => exact trivial
  | succ fuel =>
    refine ensures_readBlocks_more (h₁.rest ▸ hne) ?_
    refine t.ensures_readBlock_definition hs hnow hstandard hsystems
      (hblocks ▸ Builtin.not_has_block) (t.endsParagraph_uses calls) h₁.toFaces
      fun m body r₂ hstrip hbody h₂ => ?_
    refine (stands_skipWhile_over (p := isSpacing) h₂.standsAt).mono fun _ r₃ h₃ => ?_
    rw [List.dropWhile_idempotent] at h₃
    have hknown := t.known_define body hblocks hs hstandard
    refine (t.ensures_readBlocks_uses (e := { e with context := t.define body e.context }) hbody
      hknown hnow hlevels calls h₃.toFaces).mono ?_
    rintro _ r₄ ⟨hengine, nodes, rfl, hnodes⟩
    refine ⟨⟨body, hengine⟩, ?_⟩
    simpa [stripNodes, hstrip] using hnodes

end Template

/-- **Instantiating a template is substitution.**  In a fresh context of the language, whatever
variables are bound, a document that defines a template and uses it is read in silence; each use
becomes a paragraph of the template's text with its own arguments, and afterwards every name
stands for what it stood for before. -/
theorem instantiation_substitutes (t : Template) (bindings : Dict String)
    (calls : List (Fin t.arity → String)) :
    ∃ cx d, Context.start Builtin.configuration bindings = .ok cx ∧
      cx.parse (t.source calls) = .ok d ∧ d.messages = [] ∧
      List.Forall₂ (fun node value => t.Means value node) (stripNodes d.content) calls ∧
      ∀ name, d.context.resolve name = cx.resolve name := by
  obtain ⟨cx, hcx⟩ : ∃ cx, Context.start Builtin.configuration bindings = .ok cx := ⟨_, rfl⟩
  obtain ⟨hstores, hs⟩ := Builtin.placed_start hcx
  have hconfiguration : cx.configuration = Builtin.configuration := by
    cases hcx
    rfl
  have hstandard : cx.IsStandard := ⟨by rw [hconfiguration], by rw [hconfiguration]⟩
  have hlevels : (Engine.start cx).levels = 8 + 3 := by
    rw [Engine.levels, Engine.start, hconfiguration]
    rfl
  have hfaces : (Reader.start cx (t.source calls) []).Faces (Engine.start cx)
      (t.definition ++ t.uses calls) := ⟨String.toList_ofList, rfl, rfl⟩
  have hrun (fuel : Nat) := t.ensures_readSource fuel (by rw [Engine.start, hconfiguration])
    (by rw [Engine.start, hconfiguration]) hs hstandard rfl hlevels calls hfaces
  obtain ⟨d, hd, -⟩ := parse_ends hstores (t.source calls)
  refine ⟨cx, d, hcx, hd, ?_⟩
  rw [Context.parse, Context.read] at hd
  cases hread : readSource (readingDepth (Reader.start cx (t.source calls) []).cursor.rest.length)
      (Reader.start cx (t.source calls) []) with
  | error fault =>
    simp only [hread, bind, Except.bind] at hd
    cases hd
  | ok answer =>
    obtain ⟨content, r⟩ := answer
    simp only [hread, bind, Except.bind] at hd
    cases hd
    obtain ⟨⟨body, hengine⟩, hmeans⟩ := (hrun _).of_ok hread
    refine ⟨?_, hmeans, fun name => ?_⟩
    · show r.engine.messages = []
      rw [hengine]
      rfl
    · show r.engine.context.resolve name = _
      rw [hengine]
      rfl

/-- The template `a[/$x]b[/print $(y)]` with the parameters `x` and `y`. -/
def Template.sample : Template where
  arity := 2
  parameter i := ["x", "y"][i]
  body := [.plain "a", .reference 0, .plain "b", .print 1]
  arity_pos := by decide
  parameter_word := by decide
  parameter_injective i j := by
    revert i j
    decide
  body_ne_nil := by decide
  body_words := by simp [IsWord, isPlain]

/-- Two uses of the sample, one of which has an empty argument, where `x` is bound to something
else. -/
theorem instantiation_substitutes_sample :
    let first : Fin 2 → String := fun i => ["u", ""][i]
    let second : Fin 2 → String := fun i => ["]", "v"][i]
    Template.sample.source [first, second]
        = "[-define-block p:x:y]a[/$x]b[/print $(y)]\n\n[.p:\\u:;]\n\n[.p:\\]:\\v;]" ∧
      Template.sample.instantiate first = "aub" ∧ Template.sample.instantiate second = "a]bv" ∧
      ∃ cx d, Context.start Builtin.configuration (.ofList [("x", "w")]) = .ok cx ∧
        cx.parse (Template.sample.source [first, second]) = .ok d ∧ d.messages = [] ∧
        List.Forall₂ (fun node value => Template.sample.Means value node) (stripNodes d.content)
          [first, second] ∧
        d.context.resolve "x" = .ok (.value "w") := by
  intro first second
  obtain ⟨cx, d, hcx, hd, hsilent, hmeans, hnames⟩ :=
    instantiation_substitutes .sample (.ofList [("x", "w")]) [first, second]
  refine ⟨by decide, by decide, by decide, cx, d, hcx, hd, hsilent, hmeans, ?_⟩
  rw [hnames]
  cases hcx
  decide

end MacroMarkup
