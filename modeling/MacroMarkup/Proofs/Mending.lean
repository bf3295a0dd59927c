import MacroMarkup.Proofs.LockstepBlocks
import MacroMarkup.Proofs.Progress

/-!
# Mending the layout keeps the document

A warning about the layout of a source says that line breaks could stand elsewhere and mean the
same, and its fix puts them there.  A parse of the mended source goes through the same steps as
one of the source itself, so it comes to the same document, without the warning.

The one thing that could go wrong is a mark or a name that goes on in the gap.  No mark does; a
name could if a bracket that closes a head stood in it, and a missing mark is reported.

* `Mend.exists_of_isLayout`: where a message about the layout is mended.
* `Mend.together`: the two parses end in step.
* `layout_fix_preserves`: **the fix of a warning about the layout takes away the warning and
  nothing else.**
-/

namespace MacroMarkup

open Placed (placeless)

def Message.summary (message : Message) : Severity × Nat × String :=
  (message.severity, message.code, message.info)

theorem summary_placeless (message : Message) : (placeless message).summary = message.summary := by
  obtain ⟨severity, position, length, code, info, fixes, inner⟩ := message
  cases inner <;> rfl

theorem summaries_of_alike {messages messages' : List Message} (h : Alike messages messages') :
    messages'.map Message.summary = messages.map Message.summary := by
  have hsame : ∀ messages : List Message,
      (placeless messages).map Message.summary = messages.map Message.summary := by
    intro messages
    show (messages.map placeless).map Message.summary = _
    rw [List.map_map]
    exact List.map_congr_left fun message _ => summary_placeless message
  rw [← hsame, h, hsame]

namespace Mend

variable {M : Mend}

/-- Every message about the layout is mended somewhere. -/
theorem exists_of_isLayout (source : List Char) {message : Message}
    (h : message.isLayout = true) : ∃ M : Mend, M.source = source ∧ M.message = message := by
  simp only [Message.isLayout, Bool.and_eq_true, beq_iff_eq, List.contains_iff_mem, List.mem_cons,
    List.not_mem_nil, or_false] at h
  obtain ⟨hseverity, hcode | hcode | hcode⟩ := h
  · exact ⟨⟨source, .redundantNewlines, message, rfl, hseverity, hcode⟩, rfl, rfl⟩
  · exact ⟨⟨source, .blockInsideLine, message, rfl, hseverity, hcode⟩, rfl, rfl⟩
  · exact ⟨⟨source, .groupContentInsideLine, message, rfl, hseverity, hcode⟩, rfl, rfl⟩

/-- The fix of the message mends the source. -/
theorem Arises.fixes (h : M.Arises) :
    ∃ fix, M.message.fixes = [fix] ∧
      fix.edited (String.ofList M.source) = String.ofList M.mended := by
  obtain ⟨hmessage, hplace⟩ := h
  have hlength : (⟨M.before.length, M.before.length + M.gap.length⟩ : Span).length = M.gap.length :=
    Nat.add_sub_cancel_left _ _
  have hbefore : M.source.take M.before.length = M.before := by
    rw [source_eq, List.take_left]
  have hafter : M.source.drop (M.before.length + M.gap.length) = M.after := by
    rw [source_eq, ← List.append_assoc, ← List.length_append, List.drop_left]
  have inserted : M.gap = [] → M.problem ≠ .redundantNewlines →
      M.source.take M.before.length ++ "\n".toList ++ M.source.drop M.before.length = M.mended := by
    intro hgap hproblem
    rw [hgap, List.length_nil, Nat.add_zero] at hafter
    rw [hbefore, hafter, mended, fill, if_neg hproblem, List.append_assoc]
    rfl
  rw [hmessage]
  unfold Place at hplace
  split at hplace
  · rename_i hproblem
    refine ⟨_, congrArg (Problem.fixes _) hproblem, ?_⟩
    simp only [Fix.edited, String.toList_ofList, hlength, hbefore, hafter, mended, fill, hproblem,
      if_true, List.nil_append]
  · rename_i hproblem
    refine ⟨_, congrArg (Problem.fixes _) hproblem, ?_⟩
    simp only [Fix.edited, String.toList_ofList]
    rw [inserted hplace.1 (by rw [hproblem]; decide)]
  · rename_i hproblem
    refine ⟨_, congrArg (Problem.fixes _) hproblem, ?_⟩
    simp only [Fix.edited, String.toList_ofList]
    rw [inserted hplace.1 (by rw [hproblem]; decide)]
  · exact hplace.elim

def nothing : Lasting := ⟨fun _ => True, fun _ _ => trivial⟩

theorem anchored_start (cx : Context) (source : List Char) :
    (Reader.start cx (String.ofList source) []).cursor.Anchored source :=
  ⟨String.toList_ofList.symm, Nat.zero_le _⟩

theorem Inv.start {cx : Context} (htraced : cx.Traced Unclosing)
    (hmarks : cx.configuration.interpolators.All fun i => Unclosing i.name ∧ Unclosing i.closing) :
    M.Inv nothing (Reader.start cx (String.ofList M.source) []) where
  anchored := anchored_start cx _
  source := String.toList_ofList
  referring := rfl
  traced := htraced
  marks := hmarks
  lasting := trivial

theorem At.start (cx : Context) : M.At .ahead (Reader.start cx (String.ofList M.source) [])
    (Reader.start cx (String.ofList M.mended) []) where
  anchored := anchored_start cx _
  source := String.toList_ofList
  rest := ⟨M.before, String.toList_ofList.trans M.source_eq, String.toList_ofList⟩
  late h := by cases h
  openGroups := rfl
  engine := rfl
  messages := ⟨rfl, List.not_mem_nil⟩

/-- **The two parses end in step**, with the message behind them in the first one. -/
theorem together {cx : Context} (htraced : cx.Traced Unclosing)
    (hmarks : cx.configuration.interpolators.All fun i => Unclosing i.name ∧ Unclosing i.closing)
    {fuel : Nat} {content : List Node} {r' : Reader}
    (hrun : Parse.readSource fuel (Reader.start cx (String.ofList M.source) []) = .ok (content, r'))
    (hclean : Clean r') (hmem : M.message ∈ r'.engine.emitted) (fuel' : Nat) :
    M.Arises ∧ Ensures (· ≠ .missingSlot) (Parse.readSource fuel')
      (Reader.start cx (String.ofList M.mended) []) fun content' s' =>
        Alike content content' ∧ M.At .behind r' s' := by
  have hstep : M.InStep nothing M.Together M.Firm (Parse.readSource fuel) (Parse.readSource fuel')
      (fun _ _ => False) Alike := .readSource fuel fuel'
  have hstart : M.Inv nothing _ := Inv.start htraced hmarks
  have hfine : M.Fine (fun _ => False) r' := ⟨hclean, .inl hmem⟩
  refine ⟨?_, (hstep.same _ _ _ _ hstart hrun hfine ⟨.ahead, trivial, .start cx⟩).mono ?_⟩
  · obtain ⟨-, hemitted | ⟨hM, -⟩⟩ := (hstep.back _ _ _ hstart hrun).2 hfine
    · cases hemitted
    · exact hM
  · rintro content' s' ⟨hcontent, φ, -, hat⟩
    cases φ with
    | ahead => exact absurd hmem hat.messages.2
    | behind => exact ⟨hcontent, hat⟩

end Mend

theorem exists_ok_of_map {ε α β : Type} {x : Except ε α} {f : α → β} {b : β}
    (h : x.map f = .ok b) : ∃ a, x = .ok a ∧ f a = b := by
  cases x with
  | error e => cases h
  | ok a => exact ⟨a, rfl, Except.ok.inj h⟩

theorem parse_eq_run (cx : Context) (source : String) : cx.parse source =
    (Parse.readSource (readingDepth source.toList.length) (Reader.start cx source [])).map
      fun answer => answer.2.document answer.1 := by
  show (Parse.readSource (readingDepth source.toList.length) (Reader.start cx source []) >>=
    fun answer => pure (answer.2.document answer.1)) = _
  cases Parse.readSource (readingDepth source.toList.length) (Reader.start cx source []) <;> rfl

theorem names_of_alike {c c' : Configuration} (h : Alike c c') (kind : ModifierKind) :
    (c'.modifiers kind).names = (c.modifiers kind).names := by
  rw [← Registry.names_placeless, ← Configuration.modifiers_placeless, h,
    Configuration.modifiers_placeless, Registry.names_placeless]

/-- **The fix of a warning about the layout takes away the warning and nothing else.**  A source
that misses no mark, read in a fresh context in which no name of a modifier and no mark of an
interpolator holds a bracket that closes a head, is mended by the fix of any of these warnings:
the mended source, read in the same context, comes to the same tree but for places, the same
variables and the same visible names, and to the same messages without the one that was mended. -/
theorem layout_fix_preserves {c : Configuration} {bindings : Dict String} {cx : Context}
    (hc : c.All Stock.placed.Registered) (hcx : Context.start c bindings = .ok cx)
    (hnames : ∀ kind, (c.modifiers kind).All fun d => Unclosing d.name)
    (hmarks : c.interpolators.All fun i => Unclosing i.name ∧ Unclosing i.closing)
    {source : String} {d : Document} (hd : cx.parse source = .ok d)
    (hcomplete : ∀ m ∈ d.messages, ¬ (m.severity = .error ∧ m.code = 1))
    (hhistory : ∀ name ∈ d.context.configuration.history, Unclosing name)
    {m : Message} (hm : m ∈ d.messages) (hlayout : m.isLayout = true) :
    ∃ fix, m.fixes = [fix] ∧ ∃ d', cx.parse (fix.edited source) = .ok d' ∧
      placeless (stripNodes d'.content) = placeless (stripNodes d.content) ∧
      d'.context.bindings = d.context.bindings ∧
      (∀ kind, (d'.context.configuration.modifiers kind).names
        = (d.context.configuration.modifiers kind).names) ∧
      d'.context.configuration.interpolators = d.context.configuration.interpolators ∧
      ∃ earlier later, d.messages = earlier ++ m :: later ∧
        d'.messages.map Message.summary = (earlier ++ later).map Message.summary := by
  obtain ⟨htraced, rfl⟩ := Context.traced_start hnames hcx
  obtain ⟨M, hsource, rfl⟩ := Mend.exists_of_isLayout source.toList hlayout
  obtain rfl : String.ofList M.source = source := by rw [hsource, String.ofList_toList]
  rw [parse_eq_run] at hd
  obtain ⟨⟨content, r⟩, hrun, rfl⟩ := exists_ok_of_map hd
  have hclean : Mend.Clean r :=
    ⟨fun m hm => hcomplete m (List.mem_reverse.mpr hm), hhistory⟩
  have hmem : M.message ∈ r.engine.emitted := List.mem_reverse.mp hm
  have htogether := Mend.together htraced hmarks hrun hclean hmem
  obtain ⟨fix, hfix, hedited⟩ := (htogether 0).1.fixes
  refine ⟨fix, hfix, ?_⟩
  rw [hedited]
  have hends := (htogether (readingDepth (String.ofList M.mended).toList.length)).2
  have hparses := parse_fresh hc hcx (String.ofList M.mended)
  rw [parse_eq_run] at hparses
  rw [parse_eq_run, Ensures] at *
  generalize Parse.readSource (readingDepth (String.ofList M.mended).toList.length)
    (Reader.start cx (String.ofList M.mended) []) = answer at hends hparses ⊢
  cases answer with
  | error fault =>
    rcases hparses with ⟨d', hd', -⟩ | ⟨-, hfault⟩
    · cases hd'
    · exact absurd (Except.error.inj hfault) hends
  | ok answer =>
    obtain ⟨content', s⟩ := answer
    obtain ⟨hcontent, hat⟩ := hends
    obtain ⟨earlier, later, earlier', later', hmessages, hmessages', hearlier, hlater⟩ :=
      hat.messages
    have hcontext : Alike r.engine.context s.engine.context := congrArg Engine.context hat.engine
    have hbindings := congrArg Context.bindings hcontext
    have hconfiguration := congrArg Context.configuration hcontext
    have hinterpolators := congrArg Configuration.interpolators hconfiguration
    refine ⟨s.document content', rfl, ?_, hbindings, names_of_alike hconfiguration,
      hinterpolators, earlier.reverse, later.reverse, ?_, ?_⟩
    · rw [← stripNodes_placeless, ← stripNodes_placeless]
      exact congrArg stripNodes hcontent
    · show r.engine.emitted.reverse = _
      rw [hmessages]
      simp
    · show s.engine.emitted.reverse.map Message.summary = _
      rw [hmessages', List.map_reverse, List.map_append, summaries_of_alike hearlier,
        summaries_of_alike hlater]
      simp

theorem Builtin.unclosing :
    (∀ kind, (Builtin.configuration.modifiers kind).All fun d => Unclosing d.name) ∧
      Builtin.configuration.interpolators.All fun i => Unclosing i.name ∧ Unclosing i.closing := by
  have hnames : ∀ d ∈ Builtin.definitions, Unclosing d.name := by decide
  have hall : Builtin.configuration.All fun d => Unclosing d.name :=
    Builtin.all_configuration fun d hd _ => hnames d hd
  refine ⟨fun kind => ?_, Registry.all_empty.set (by decide)⟩
  cases kind with
  | block => exact hall.blocks
  | inline => exact hall.inlines
  | system => exact hall.systems

/-- A group that starts in the line of its mark holds what one that starts behind it holds. -/
theorem layout_fix_preserves_group :
    ∃ cx d, Context.start Builtin.configuration .empty = .ok cx ∧
      cx.parse "[-define-block p]:-- [.slot]\n--:" = .ok d ∧
      ∃ m ∈ d.messages, m.isLayout = true ∧ ∃ fix, m.fixes = [fix] ∧
        ∃ d', cx.parse (fix.edited "[-define-block p]:-- [.slot]\n--:") = .ok d' ∧
          placeless (stripNodes d'.content) = placeless (stripNodes d.content) := by
  have hrun : ((Context.start Builtin.configuration .empty).bind
      fun cx => cx.parse "[-define-block p]:-- [.slot]\n--:").toOption.map (fun d =>
        d.messages.any Message.isLayout &&
          d.messages.all (fun m => !(m.severity == .error && m.code == 1)) &&
          d.context.configuration.history.all fun name => !(name.toList.contains ']')) =
        some true := by
    decide +kernel
  obtain ⟨cx, hcx⟩ : ∃ cx, Context.start Builtin.configuration .empty = .ok cx := ⟨_, rfl⟩
  rw [hcx] at hrun
  obtain ⟨d, hd, hread⟩ := exists_ok_of_toOption hrun
  simp only [Bool.and_eq_true, List.any_eq_true, List.all_eq_true] at hread
  obtain ⟨⟨⟨m, hm, hlayout⟩, hcomplete⟩, hhistory⟩ := hread
  have hc : Builtin.configuration.All Stock.placed.Registered :=
    Builtin.all_configuration (Builtin.registered fun _ _ _ => trivial)
  obtain ⟨fix, hfix, d', hd', hcontent, -⟩ :=
    layout_fix_preserves hc hcx Builtin.unclosing.1 Builtin.unclosing.2 hd
      (fun m hm h => by simpa [h] using hcomplete m hm)
      (fun name hname => by simpa using hhistory name hname) hm hlayout
  exact ⟨cx, d, hcx, hd, m, hm, hlayout, fix, hfix, d', hd', hcontent⟩

end MacroMarkup
