import MacroMarkup.Proofs.Balance
import MacroMarkup.Proofs.Steady
import MacroMarkup.Document.Strip

/-!
# When a conditional is decided

A conditional is decided after its body was read, in the context that the body left behind.
What the body did and reported stays, whichever way the decision goes, and deciding does
nothing else.

* `Context.isBound`: a name has a value.
* `Conditional.Decided`: what a conditional stands for, and what deciding does.
* `ensures_finishConditional`: a conditional is decided once its content is known.
* `conditional_decided`: the same for conditionals that are read and for generated ones.
-/

namespace MacroMarkup

open Parse

def Context.isBound (cx : Context) (name : String) : Bool :=
  match cx.resolve name with
  | .ok (.value _) => true
  | _ => false

theorem Context.isBound_eq {cx : Context} {s : MacroState} (hs : cx.macros = .ok s)
    (name : String) :
    cx.isBound name = match cx.resolution s name with
      | .value _ => true
      | _ => false := by
  rw [isBound, resolve_eq hs]
  cases cx.resolution s name <;> rfl

/-- The modifier stands for its body if a name is bound, or if it is not, and does not read
its body for later. -/
structure Modifier.IsConditional (m : Modifier) (expectDefined : Bool) : Prop where
  behaviour : m.definition.behaviour = .conditional expectDefined
  delaysContent : m.definition.delaysContent = false

/-- At `e`, where the content of a conditional is known, it became `m`: nothing if the
condition fails, and then nothing else changes; its content if the condition holds.  Content
in which nothing waits stays as it is, and then nothing else changes unless something is
refused. -/
structure Conditional.Decided (expectDefined : Bool) (name : String) (content : List Node)
    (settled : Prop) (e : Engine) (m : Modifier) (e' : Engine) : Prop where
  keeps : m.content = content
  fails : e.context.isBound name ≠ expectDefined → m.expansion = some [] ∧ e' = e
  holds : e.context.isBound name = expectDefined → ∃ nodes, m.expansion = some nodes ∧
    (settled → nodes = content ∧ (e'.refusals = e.refusals → e' = e))

theorem Conditional.Decided.imp {expectDefined : Bool} {name : String} {content : List Node}
    {settled settled' : Prop} {e e' : Engine} {m : Modifier}
    (h : Decided expectDefined name content settled e m e') (imp : settled' → settled) :
    Decided expectDefined name content settled' e m e' := by
  refine ⟨h.keeps, h.fails, fun hholds => ?_⟩
  obtain ⟨nodes, hnodes, hsettled⟩ := h.holds hholds
  exact ⟨nodes, hnodes, fun h' => hsettled (imp h')⟩

def Modifier.Names (m : Modifier) (name : String) : Prop :=
  m.arguments.map (·.value) = [some name]

/-- A name is a single argument with a value, so nothing is wrong with the arguments. -/
theorem Modifier.Names.exists_argument {m : Modifier} {name : String} (hm : m.Names name) :
    ∃ a, m.arguments = [a] ∧ a.text = name ∧ checkArguments? m 1 (some 1) = none := by
  obtain ⟨argument, hargument, hvalue⟩ : ∃ a, m.arguments = [a] ∧ a.value = some name := by
    unfold Modifier.Names at hm
    cases harguments : m.arguments with
    | nil => simp [harguments] at hm
    | cons a rest =>
      cases rest with
      | nil => exact ⟨a, rfl, by simpa [harguments] using hm⟩
      | cons b rest => simp [harguments] at hm
  refine ⟨argument, hargument, by rw [Argument.text, hvalue, Option.getD_some], ?_⟩
  simp [checkArguments?, checkCount?, hargument, hvalue]

section Deciding

variable {expectDefined : Bool} {name : String} {m : Modifier}

theorem ensures_prepareConditional {cx : Context} {s : MacroState} {state : Option Bool}
    {immediate : Bool} (hs : cx.macros = .ok s) (hname : name ≠ "") (hm : m.Names name) :
    Ensures noFault ((conditionalLifecycle expectDefined).prepare m state immediate) cx
      fun r between => r = (some (cx.isBound name), []) ∧ between = cx := by
  obtain ⟨argument, hargument, htext, hcheck⟩ := hm.exists_argument
  have hnonempty : name.isEmpty = false := by simpa using hname
  simp only [conditionalLifecycle, hcheck, hargument, htext, hnonempty, Bool.false_eq_true,
    if_false, ensures_bind, ensures_resolve hs, Context.isBound_eq hs]
  cases cx.resolution s name with
  | value text => exact ⟨rfl, rfl⟩
  | undefined => exact ⟨rfl, rfl⟩
  | deferred => exact ⟨rfl, rfl⟩

theorem ensures_expandConditional {cx : Context} {bound immediate : Bool} :
    Ensures noFault ((conditionalLifecycle expectDefined).expand m (some bound) immediate) cx
      fun d decided => decided = cx ∧
        d = (.replace (if bound = expectDefined then m.content else []), some bound) := by
  by_cases h : bound = expectDefined
  · subst h
    simp only [conditionalLifecycle, if_true]
    exact ⟨rfl, rfl⟩
  · have hne : some bound ≠ some expectDefined := fun heq => h (Option.some.inj heq)
    simp only [conditionalLifecycle, hne, h, if_false]
    exact ⟨rfl, rfl⟩

theorem ensures_processConditional {levels : Nat} {e : Engine} {outermost : Bool}
    {state : m.definition.behaviour.lifecycle.State} (he : e.Sound .lenient)
    (hbehaviour : m.definition.behaviour = .conditional expectDefined)
    {nodes : List Node} (hnodes : ∀ n ∈ nodes, (Regime.lenient.stock e).Keeps n) :
    Ensures noFault (processNodes (process levels) outermost m state nodes) e fun r e' =>
      (∀ n ∈ nodes, n.Settled fun _ => True) →
        r.1 = nodes ∧ (e'.refusals = e.refusals → e' = e) := by
  obtain ⟨span, head, definition, arguments, content, expansion⟩ := m
  obtain ⟨stamp, dname, kind, slot, delaysContent, alwaysExpands, behaviour⟩ := definition
  cases hbehaviour
  have hlawful := ensures_processNodes (lawful_process levels) outermost he hnodes
    (@Lifecycle.KeepsProcessing.of_default _ _ _ _ rfl rfl state he.stores)
  by_cases hsettled : ∀ n ∈ nodes, n.Settled fun _ => True
  · have hsteady := @steady_processNodes _ _ (steady_process levels) outermost _ e state rfl rfl
      _ hsettled
    refine (hlawful.and (hsteady.allow fun _ h => h.elim)).mono ?_
    exact fun r e' h _ => ⟨h.2.1, h.2.2.2⟩
  · exact hlawful.mono fun r e' _ h => absurd h hsettled

/-- **A conditional is decided once its content is known**, in the context that the content
left behind. -/
theorem ensures_finishConditional {levels : Nat} {e : Engine} (outermost : Bool)
    {state : m.definition.behaviour.lifecycle.State} (he : e.Sound .lenient)
    (himmediate : e.immediate = true) (hsits : (Regime.lenient.stock e).Sits m)
    (hm : m.IsConditional expectDefined) (hname : name ≠ "") (hnames : m.Names name) :
    Ensures noFault (finishModifier (process levels) outermost m state) e fun r e' =>
      Conditional.Decided expectDefined name m.content
        (∀ n ∈ m.content, n.Settled fun _ => True) e r.1 e' := by
  obtain ⟨span, head, definition, arguments, content, expansion⟩ := m
  obtain ⟨stamp, dname, kind, slot, delaysContent, alwaysExpands, behaviour⟩ := definition
  obtain ⟨rfl, -⟩ := hm
  obtain ⟨s, hs, -⟩ := he.stores.macros
  simp only [ensures_finishModifier_iff, ensures_reporting, ensures_inContext]
  refine (ensures_prepareConditional hs hname hnames).mono ?_
  intro r between hanswer
  obtain ⟨rfl, rfl⟩ := hanswer
  refine ensures_expandConditional.mono ?_
  intro d decided hanswer
  obtain ⟨rfl, rfl⟩ := hanswer
  simp only [Engine.emit_nil, himmediate, Bool.not_true, Bool.false_and, Bool.false_eq_true,
    false_implies, true_and, not_false_eq_true, true_implies]
  by_cases hholds : e.context.isBound name = expectDefined
  · simp only [hholds, if_true]
    refine (ensures_processConditional he rfl hsits.content).mono ?_
    exact fun r e' h => ⟨rfl, fun hfails => absurd hholds hfails, fun _ => ⟨r.1, rfl, h⟩⟩
  · simp only [hholds, if_false]
    exact ⟨rfl, fun _ => ⟨rfl, rfl⟩, fun h => absurd h hholds⟩

theorem beforeContent_conditional {immediate : Bool} (hm : m.IsConditional expectDefined)
    (e : Engine) {post : m.definition.behaviour.lifecycle.State → Engine → Prop}
    (h : post m.definition.behaviour.lifecycle.idle e) :
    Ensures noFault
      (Expand.reporting (m.definition.behaviour.lifecycle.beforeContent m immediate)) e post := by
  obtain ⟨span, head, definition, arguments, content, expansion⟩ := m
  obtain ⟨stamp, dname, kind, slot, delaysContent, alwaysExpands, behaviour⟩ := definition
  obtain ⟨rfl, -⟩ := hm
  exact h

theorem afterContent_conditional (hm : m.IsConditional expectDefined) (e : Engine)
    {state : m.definition.behaviour.lifecycle.State}
    {post : m.definition.behaviour.lifecycle.State → Engine → Prop} (h : post state e) :
    Ensures noFault (Expand.inContext (m.definition.behaviour.lifecycle.afterContent state)) e
      post := by
  obtain ⟨span, head, definition, arguments, content, expansion⟩ := m
  obtain ⟨stamp, dname, kind, slot, delaysContent, alwaysExpands, behaviour⟩ := definition
  obtain ⟨rfl, -⟩ := hm
  exact h

end Deciding

/-! ### Conditionals that are read -/

section Read

variable {expectDefined : Bool} {name : String} {fuel : Nat} {kind : ModifierKind} {r : Reader}

/-- A conditional that is read: its body is read, and behind it the conditional is
decided. -/
theorem readModifier_conditional {head : Head} {r₁ : Reader} (he : r.engine.Sound .lenient)
    (himmediate : r.engine.immediate = true) (hpeek : r.cursor.peek kind.opening.text = true)
    (hfuel : 8 * r.left ≤ fuel + 1) (hhead : readHead kind r = .ok (head, r₁))
    (hm : head.modifier.IsConditional expectDefined) (hname : name ≠ "")
    (hnames : head.modifier.Names name) :
    ∃ content continues r₂ m r₃, readBody fuel kind head r₁ = .ok ((content, continues), r₂) ∧
      readModifier (fuel + 1) kind r = .ok ((m, continues), r₃) ∧
      r₃ = { r₂ with engine := r₃.engine } ∧
      Conditional.Decided expectDefined name content
        (r.engine.IsFinal ∧ r₂.engine.refusals = r.engine.refusals) r₂.engine m r₃.engine := by
  obtain ⟨h₁, hmoves, -, hmade⟩ := (ensures_readHead he.stores.readable).of_ok hhead
  have he₁ : r₁.engine.Sound .lenient := h₁.reports.sound he
  have hlt₁ : r₁.left < r.left := hmoves hpeek
  obtain ⟨⟨content, continues⟩, r₂, hbody, hyields, -⟩ :=
    ((constructs (Regime.world .lenient) fuel).body kind head r₁ he₁ (by omega)).exists_ok
  have hrun : Ensures noFault (readModifier (fuel + 1) kind) r fun read r₃ =>
      read.2 = continues ∧ r₃ = { r₂ with engine := r₃.engine } ∧
        Conditional.Decided expectDefined name content
          (r.engine.IsFinal ∧ r₂.engine.refusals = r.engine.refusals) r₂.engine read.1
          r₃.engine := by
    rw [ensures_readModifier_iff, ensures_of_eq hhead]
    refine beforeContent_conditional hm r₁.engine ?_
    simp only [hm.delaysContent, Bool.toNat_false, Nat.add_zero]
    refine (ensures_of_eq hbody).mpr ?_
    have hstart : head.modifier.head.start ≤ r₂.cursor.position := by
      rw [hmade.starts]
      exact Nat.le_trans h₁.position_le hyields.passes.position_le
    refine ensures_wholeSpan hstart fun span hspan _ => ?_
    refine afterContent_conditional hm r₂.engine ?_
    have hf : r.engine.Follows r₂.engine := h₁.reports.follows.trans hyields.yields.follows
    have himmediate₂ : r₂.engine.immediate = true := by
      rw [hf.immediate]
      exact himmediate
    let m : Modifier := { head.modifier with span := span, content := content }
    have hsits : (Regime.lenient.stock r₂.engine).Sits m :=
      ⟨hf.le.fits _ hmade.fits, hspan ▸ hmade.placed, hyields.yields.keeps⟩
    have hfinish := @ensures_finishConditional expectDefined name m r₂.engine.levels r₂.engine true
      head.modifier.definition.behaviour.lifecycle.idle hyields.yields.sound himmediate₂ hsits
      ⟨hm.behaviour, hm.delaysContent⟩ hname hnames
    refine ensures_expandRead_now himmediate₂ (hfinish.mono ?_)
    intro answer e hdecided
    obtain ⟨m', complete⟩ := answer
    refine ⟨rfl, rfl, hdecided.imp ?_⟩
    intro hanswer n hn
    obtain ⟨hfinal, hrefusals⟩ := hanswer
    have hsame : r₂.engine.refusals = r₁.engine.refusals := by
      rw [hrefusals, h₁.reports.refusals]
    exact (hyields.yields.settled (h₁.reports.isFinal hfinal) hsame n hn).mono fun _ _ => trivial
  obtain ⟨⟨m, continues'⟩, r₃, hread, rfl, hcursor, hdecided⟩ := hrun.exists_ok
  exact ⟨content, continues', r₂, m, r₃, hbody, hread, hcursor, hdecided⟩

end Read

/-! ### Conditionals in generated content -/

section Generated

variable {expectDefined : Bool} {name : String} {levels : Nat} {e : Engine} {m : Modifier}

/-- A conditional in generated content: its content is walked, and behind it the conditional
is decided. -/
theorem expandGenerated_conditional {arguments : List Argument} {e₁ : Engine}
    (he : e.Sound .lenient) (himmediate : e.immediate = true)
    (hkeeps : (Regime.lenient.stock e).Keeps (.modifier m)) (hwaits : m.expansion = none)
    (harguments : expandArguments m.arguments e = .ok (arguments, e₁))
    (hm : m.IsConditional expectDefined) (hname : name ≠ "")
    (hnames : arguments.map (·.value) = [some name]) :
    ∃ content e₂ m' complete e₃,
      walkContent (process levels) { m with arguments := arguments } e₁ = .ok (content, e₂) ∧
      expandGenerated (process levels) m e = .ok ((m', complete), e₃) ∧
      Conditional.Decided expectDefined name content
        (e.IsFinal ∧ e₂.refusals = e.refusals) e₂ m' e₃ := by
  let m₁ : Modifier := { m with arguments := arguments }
  have hm₁ : m₁.IsConditional expectDefined := ⟨hm.behaviour, hm.delaysContent⟩
  obtain ⟨s, hs, -⟩ := he.stores.macros
  have hthere : ∀ fault, e.context.macros = .error fault → noFault fault := allows_of_macros hs
  obtain ⟨⟨hreports, -⟩, -⟩ := (ensures_expandArguments m.arguments e hthere).of_ok harguments
  have he₁ : e₁.Sound .lenient := hreports.sound he
  have hsits : (Regime.lenient.stock e).Sits m := (Stock.sits_iff hwaits).mpr hkeeps
  have hle := hreports.follows.le (R := .lenient)
  -- the body is no place of its own
  have hbody : e₁.inBody m₁.definition.delaysContent = e₁ := by
    rw [hm₁.delaysContent]
    rfl
  obtain ⟨content, e₂, hwalk, hyields⟩ := (ensures_walkContent (m := m₁)
    (lawful_process levels) (hbody.symm ▸ he₁)
    fun n hn => hle.keeps n (hsits.content n hn)).exists_ok
  have hbody₂ : e₂.inBody m₁.definition.delaysContent = e₂ := by
    rw [hm₁.delaysContent]
    rfl
  rw [hbody, hbody₂] at hyields
  have hrun : Ensures noFault (expandGenerated (process levels) m) e fun r e₃ =>
      Conditional.Decided expectDefined name content
        (e.IsFinal ∧ e₂.refusals = e.refusals) e₂ r.1 e₃ := by
    have himmediate₁ : e₁.immediate = true := by
      rw [hreports.follows.immediate]
      exact himmediate
    have himmediate₂ : e₂.immediate = true := by
      rw [hyields.follows.immediate]
      exact himmediate₁
    have hopen : ¬ m.expansion.isSome = true := by simp [hwaits]
    rw [ensures_expandGenerated_now hopen harguments himmediate₁]
    refine beforeContent_conditional hm₁ e₁ ?_
    refine (ensures_of_eq hwalk).mpr ?_
    refine afterContent_conditional hm₁ e₂ ?_
    let m₂ : Modifier := { m₁ with content := content }
    have hsits₂ : (Regime.lenient.stock e₂).Sits m₂ :=
      ⟨(hreports.follows.trans hyields.follows).le.fits _ hsits.fits, hsits.placed, hyields.keeps⟩
    have hfinish := @ensures_finishConditional expectDefined name m₂ levels e₂ false
      m.definition.behaviour.lifecycle.idle hyields.sound himmediate₂ hsits₂
      ⟨hm.behaviour, hm.delaysContent⟩ hname hnames
    refine hfinish.mono fun r e₃ hdecided => hdecided.imp ?_
    intro hanswer n hn
    obtain ⟨hfinal, hrefusals⟩ := hanswer
    have hsame : e₂.refusals = e₁.refusals := by
      rw [hrefusals, hreports.refusals]
    exact (hyields.settled (hreports.isFinal hfinal) hsame n hn).mono fun _ _ => trivial
  obtain ⟨⟨m', complete⟩, e₃, hgenerated, hdecided⟩ := hrun.exists_ok
  exact ⟨content, e₂, m', complete, e₃, hwalk, hgenerated, hdecided⟩

end Generated

/-! ### Both together -/

/-- Whether a conditional expects the variable to be defined. -/
def Behaviour.expects? : Behaviour → Option Bool
  | .conditional expectDefined => some expectDefined
  | _ => none

theorem Behaviour.eq_conditional_of_expects? {b : Behaviour} {expectDefined : Bool}
    (h : b.expects? = some expectDefined) : b = .conditional expectDefined := by
  cases b with
  | conditional expectDefined => rw [Option.some.inj h]
  | _ => cases h

/-- **A conditional is decided behind its body.**  In a source its body is read first, and in
generated content its content is walked first.  If the condition fails then, the conditional
stands for nothing and all is as the body left it.  If it holds, it stands for its body: as it
is, and with no effects of its own, unless something was refused or a definition around it is
being read. -/
theorem conditional_decided {expectDefined : Bool} {name : String} (hname : name ≠ "") :
    (∀ (fuel : Nat) (kind : ModifierKind) (r r₁ : Reader) (head : Head),
      r.engine.Sound .lenient → r.engine.immediate = true →
      r.cursor.peek kind.opening.text = true → 8 * r.left ≤ fuel + 1 →
      readHead kind r = .ok (head, r₁) → head.modifier.IsConditional expectDefined →
      head.modifier.Names name →
      ∃ content continues r₂ m r₃, readBody fuel kind head r₁ = .ok ((content, continues), r₂) ∧
        readModifier (fuel + 1) kind r = .ok ((m, continues), r₃) ∧
        r₃ = { r₂ with engine := r₃.engine } ∧
        Conditional.Decided expectDefined name content
          (r.engine.IsFinal ∧ r₂.engine.refusals = r.engine.refusals) r₂.engine m r₃.engine) ∧
    (∀ (levels : Nat) (e e₁ : Engine) (m : Modifier) (arguments : List Argument),
      e.Sound .lenient → e.immediate = true → (Regime.lenient.stock e).Keeps (.modifier m) →
      m.expansion = none → expandArguments m.arguments e = .ok (arguments, e₁) →
      m.IsConditional expectDefined → arguments.map (·.value) = [some name] →
      ∃ content e₂ m' complete e₃,
        walkContent (process levels) { m with arguments := arguments } e₁ = .ok (content, e₂) ∧
        expandGenerated (process levels) m e = .ok ((m', complete), e₃) ∧
        Conditional.Decided expectDefined name content
          (e.IsFinal ∧ e₂.refusals = e.refusals) e₂ m' e₃) := by
  constructor
  · intro fuel kind r r₁ head he himmediate hpeek hfuel hhead hm hnames
    exact readModifier_conditional he himmediate hpeek hfuel hhead hm hname hnames
  · intro levels e e₁ m arguments he himmediate hkeeps hwaits harguments hm hnames
    exact expandGenerated_conditional he himmediate hkeeps hwaits harguments hm hname hnames

/-- A source that starts with a conditional, and a conditional in generated content. -/
theorem conditional_decided_ifdef :
    let source := "[.ifdef x]\n:--\n[-var x:1]\nabc\n--:"
    let ifdef : Definition := ⟨0, "ifdef", .block, .normal, false, false, .conditional true⟩
    let generated : Modifier :=
      ⟨⟨0, 1⟩, ⟨0, 1⟩, ifdef, [⟨⟨0, 1⟩, [], some "x"⟩], [.text ⟨0, 1⟩ "a"], none⟩
    ∃ cx head r₁, Context.start Builtin.configuration .empty = .ok cx ∧
      readHead .block (Reader.start cx source []) = .ok (head, r₁) ∧
      (∃ content continues r₂ m r₃, readBody 400 .block head r₁ = .ok ((content, continues), r₂) ∧
        readModifier 401 .block (Reader.start cx source []) = .ok ((m, continues), r₃) ∧
        r₃ = { r₂ with engine := r₃.engine } ∧
        Conditional.Decided true "x" content
          ((Engine.start cx).IsFinal ∧ r₂.engine.refusals = 0) r₂.engine m r₃.engine) ∧
      ∃ content e₂ m' complete e₃,
        walkContent (process 3) generated (.start cx) = .ok (content, e₂) ∧
        expandGenerated (process 3) generated (.start cx) = .ok ((m', complete), e₃) ∧
        Conditional.Decided true "x" content
          ((Engine.start cx).IsFinal ∧ e₂.refusals = 0) e₂ m' e₃ := by
  intro source ifdef generated
  obtain ⟨cx, hcx⟩ : ∃ cx, Context.start Builtin.configuration .empty = .ok cx := ⟨_, rfl⟩
  have he : (Engine.start cx).Sound .lenient := (Builtin.placed_start hcx).1.lenient
  let r := Reader.start cx source []
  obtain ⟨head, r₁, hhead, -⟩ := (@ensures_readHead _ _ .block r he.stores.readable).exists_ok
  have hread : ((Context.start Builtin.configuration .empty).bind fun cx =>
      readHead .block (Reader.start cx source [])).toOption.map (fun p =>
        let d := p.1.modifier.definition
        (d.delaysContent, p.1.modifier.arguments.map (·.value), d.behaviour.expects?))
        = some (false, [some "x"], some true) := by
    decide +kernel
  rw [hcx, Except.bind, hhead] at hread
  have hfacts := Option.some.inj hread
  have hdelays : head.modifier.definition.delaysContent = false := congrArg (·.1) hfacts
  have hnames : head.modifier.arguments.map (·.value) = [some "x"] := congrArg (·.2.1) hfacts
  have hbehaviour : head.modifier.definition.behaviour = .conditional true :=
    Behaviour.eq_conditional_of_expects? (congrArg (·.2.2) hfacts)
  have hsits : (Regime.lenient.stock (.start cx)).Keeps (.modifier generated) := by
    refine .waiting rfl trivial (Nat.zero_le _) (fun n hn => ?_) (List.forall_mem_nil _)
    rw [List.mem_singleton.mp hn]
    exact .leaf rfl
  have hexpand : expandArguments generated.arguments (.start cx)
      = .ok (generated.arguments, .start cx) := rfl
  refine ⟨cx, head, r₁, hcx, hhead, ?_, ?_⟩
  · have hcursor : (Cursor.ofString "[.ifdef x]\n:--\n[-var x:1]\nabc\n--:" []).peek "[." = true ∧
        8 * (Cursor.ofString "[.ifdef x]\n:--\n[-var x:1]\nabc\n--:" []).rest.length ≤ 401 := by
      decide +kernel
    exact (conditional_decided (by decide)).1 400 .block r r₁ head he rfl hcursor.1 hcursor.2
      hhead ⟨hbehaviour, hdelays⟩ hnames
  · exact (conditional_decided (by decide)).2 3 (.start cx) (.start cx) generated _ he rfl hsits rfl
      hexpand ⟨rfl, rfl⟩ rfl

/-- The body of a conditional that would hold makes it fail, and the body of a conditional
that fails leaves a variable behind. -/
theorem conditional_decided_too_late :
    (∃ cx d, Context.start Builtin.configuration .empty = .ok cx ∧ cx.isBound "x" = false ∧
      cx.parse "[.ifndef x]\n:--\n[-var x:1]\nabc\n--:" = .ok d ∧
      (stripNodes d.content).isEmpty = true) ∧
    ∃ cx d, Context.start Builtin.configuration .empty = .ok cx ∧ cx.isBound "x" = false ∧
      cx.parse "[.ifdef x]\n:--\n[-var y:1]\n--:" = .ok d ∧ d.context.isBound "y" = true := by
  have hstart : (Context.start Builtin.configuration .empty).toOption.map (·.isBound "x")
      = some false := by
    decide +kernel
  obtain ⟨cx, hcx, hunbound⟩ := exists_ok_of_toOption hstart
  constructor
  · have hempty : ((Context.start Builtin.configuration .empty).bind fun cx =>
        cx.parse "[.ifndef x]\n:--\n[-var x:1]\nabc\n--:").toOption.map
          (fun d => (stripNodes d.content).isEmpty) = some true := by
      decide +kernel
    rw [hcx, Except.bind] at hempty
    obtain ⟨d, hd, hstripped⟩ := exists_ok_of_toOption hempty
    exact ⟨cx, d, hcx, hunbound, hd, hstripped⟩
  · have hleft : ((Context.start Builtin.configuration .empty).bind fun cx =>
        cx.parse "[.ifdef x]\n:--\n[-var y:1]\n--:").toOption.map
          (fun d => d.context.isBound "y") = some true := by
      decide +kernel
    rw [hcx, Except.bind] at hleft
    obtain ⟨d, hd, hbound⟩ := exists_ok_of_toOption hleft
    exact ⟨cx, d, hcx, hunbound, hd, hbound⟩

end MacroMarkup
