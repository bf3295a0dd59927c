import MacroMarkup.Proofs.Fresh
import MacroMarkup.Proofs.Reading

/-!
# What a parse leaves open

A parse leaves open what it found open: the definitions being read, the invocations being
processed and the module being recorded.  It meets no fault on the way, whatever the source
is and whatever was open before, if the context is well formed.

* `Stock.placed`: the stock of a well-formed context, in which names are not empty and the
  head of a modifier that waits lies behind its start.  `Builtin.placed_start`: fresh contexts
  over the modifiers that come with the language are well formed.
* `ensures_read`: the law of a parse under a regime.  `parse_ends`: there is a document.
* `parse_leaves_open`: a parse leaves open what it found open.
-/

namespace MacroMarkup

/-- The modifiers that wait are placed, also those in bodies of definitions. -/
def Stock.placed : Stock :=
  .kept (fun _ => True) (fun _ => True) (fun _ _ _ _ _ _ => trivial) fun _ _ => trivial

theorem Builtin.placed_start {limit : Nat} {bindings : Dict String} {cx : Context}
    (h : Context.start { Builtin.configuration with depthLimit := limit } bindings = .ok cx) :
    cx.Stores .placed ∧ cx.macros = .ok .initial :=
  Builtin.stores_start (Builtin.all_configuration (Builtin.registered fun _ _ _ => trivial)) h

def Regime.lenient : Regime where
  strict := False
  delaying := False
  delaying_of_strict := id
  Admits _ := True
  custom _ _ _ _ _ _ := trivial
  unknown _ _ := trivial
  delays h := h.elim

theorem Regime.expands_lenient (e : Engine) (nodes : List Node) :
    Regime.lenient.Expands e nodes := ⟨False.elim, fun hclean => hclean.1.elim⟩

theorem Regime.placed_le_lenient (e : Engine) : Stock.placed.Le (Regime.lenient.stock e) where
  fits _ hd := ⟨trivial, fun n hn => (hd.2 n hn).mono fun nodes _ => expands_lenient e nodes⟩
  keeps _ hn := Node.Kept.mono hn fun nodes _ => expands_lenient e nodes

theorem Regime.lenient_le_placed (e : Engine) : (Regime.lenient.stock e).Le Stock.placed where
  fits _ hd := ⟨trivial, fun n hn => (hd.2 n hn).mono fun _ _ => trivial⟩
  keeps _ hn := Node.Kept.mono hn fun _ _ => trivial

theorem Context.Stores.lenient {cx : Context} (hcx : cx.Stores .placed) :
    (Engine.start cx).Sound .lenient :=
  ⟨hcx.mono (Regime.placed_le_lenient _), fun h => h.elim⟩

/-- **A parse under a regime** ends with a document, whose nodes are settled if nothing is
being read at the start and nothing is refused. -/
theorem ensures_read {R : Regime} {cx : Context} (he : (Engine.start cx).Sound R)
    (source : String) (inspectors : List Inspector) :
    ∃ d e, cx.read source inspectors = .ok d ∧ (Engine.start cx).Yields R d.content e ∧
      d.context = e.context ∧ d.messages = e.messages ∧ d.refusals = e.refusals ∧
      d.anticipations = e.anticipations := by
  obtain ⟨hok, herror⟩ := read_law (W := R.world) he source inspectors
  cases hread : cx.read source inspectors with
  | error fault => exact (herror fault hread).elim
  | ok d =>
    obtain ⟨e, hyields, hcontext, hmessages, hrefusals, hanticipations, -, -⟩ := hok d hread
    exact ⟨d, e, rfl, hyields, hcontext, hmessages, hrefusals, hanticipations⟩

/-- In a well-formed context every source ends with a document of the whole source. -/
theorem parse_ends {cx : Context} (hcx : cx.Stores .placed) (source : String) :
    ∃ d, cx.parse source = .ok d ∧ d.span = ⟨0, source.toList.length⟩ := by
  obtain ⟨hok, herror⟩ := read_law (W := Regime.lenient.world) hcx.lenient source []
  rw [Context.parse_eq_read]
  cases hread : cx.read source [] with
  | error fault => exact (herror fault hread).elim
  | ok d =>
    obtain ⟨-, -, -, -, -, -, hspan, -⟩ := hok d hread
    exact ⟨d, rfl, hspan⟩

theorem parse_stays_placed {cx : Context} {source : String} {d : Document}
    (hcx : cx.Stores .placed) (hd : cx.parse source = .ok d) : d.context.Stores .placed := by
  obtain ⟨d', e, hd', hyields, hcontext, -⟩ := ensures_read hcx.lenient source []
  obtain rfl := Except.ok.inj (hd.symm.trans hd')
  rw [hcontext]
  exact hyields.sound.stores.mono (Regime.lenient_le_placed e)

/-- **A parse leaves open what it found open**, and meets no fault: in a well-formed
context, whatever definitions, invocations and modules are open in it, every source ends
with a document, in a well-formed context in which the same is open. -/
theorem parse_leaves_open {cx : Context} {s : MacroState} (hcx : cx.Stores .placed)
    (hs : cx.macros = .ok s) (source : String) :
    ∃ d s', cx.parse source = .ok d ∧ d.context.Stores .placed ∧ d.context.macros = .ok s' ∧
      s'.blockDelayed = s.blockDelayed ∧ s'.inlineDelayed = s.inlineDelayed ∧
      s'.blockFrames = s.blockFrames ∧ s'.inlineFrames = s.inlineFrames ∧
      s'.insideModule = s.insideModule ∧ s'.isBalanced = s.isBalanced := by
  obtain ⟨d, e, hd, hyields, hcontext, -, -, -⟩ := ensures_read hcx.lenient source []
  obtain ⟨s', hs', hopen⟩ := hyields.follows.agrees s hs
  have hblockDelayed : s'.blockDelayed = s.blockDelayed := hopen.delayed .block
  have hinlineDelayed : s'.inlineDelayed = s.inlineDelayed := hopen.delayed .inline
  have hblockFrames : s'.blockFrames = s.blockFrames := hopen.frames .block
  have hinlineFrames : s'.inlineFrames = s.inlineFrames := hopen.frames .inline
  have hmodule : s'.insideModule = s.insideModule := hopen.insideModule
  refine ⟨d, s', hd, ?_, ?_, hblockDelayed, hinlineDelayed, hblockFrames, hinlineFrames,
    hmodule, ?_⟩
  · rw [hcontext]
    exact hyields.sound.stores.mono (Regime.lenient_le_placed e)
  · rw [hcontext]
    exact hs'
  · simp only [MacroState.isBalanced, hblockDelayed, hinlineDelayed, hblockFrames,
      hinlineFrames, hmodule]

/-- A definition, an invocation and a module that are open around a source stay open. -/
theorem parse_leaves_open_around :
    let s : MacroState := { MacroState.initial with
      inlineDelayed := [⟨"", ["x"]⟩]
      blockFrames := [⟨"", "box", .empty, [.text ⟨0, 1⟩ "a"]⟩]
      insideModule := some "m" }
    let cx := Context.withMacros ⟨Builtin.configuration, .empty, .vacant, 0⟩ s
    (cx.Stores .placed ∧ cx.macros = .ok s) ∧
      ∃ d s', cx.parse "[.slot]" = .ok d ∧ d.context.Stores .placed ∧ d.context.macros = .ok s' ∧
        s'.blockDelayed = s.blockDelayed ∧ s'.inlineDelayed = s.inlineDelayed ∧
        s'.blockFrames = s.blockFrames ∧ s'.inlineFrames = s.inlineFrames ∧
        s'.insideModule = s.insideModule ∧ s'.isBalanced = s.isBalanced := by
  intro s cx
  have hstores : s.Stores .placed := by
    refine ⟨List.forall_mem_nil _, List.forall_mem_nil _, fun kind frame hf n hn => ?_⟩
    cases kind with
    | block =>
      rw [List.mem_singleton.mp hf] at hn
      rw [List.mem_singleton.mp hn]
      exact Stock.placed.leaf _ rfl
    | inline => cases hf
  have hcx : cx.Stores .placed :=
    (Builtin.all_configuration (Builtin.registered fun _ _ _ => trivial)).stores rfl hstores
  exact ⟨⟨hcx, rfl⟩, parse_leaves_open hcx rfl "[.slot]"⟩

end MacroMarkup
