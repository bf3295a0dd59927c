import MacroMarkup.Proofs.Balance
import MacroMarkup.Document.Strip

/-!
# What is left to expand

Final visits expand every modifier but plain ones, and every part of a source is visited
once by a final visit.  A modifier that was replaced ahead of time is not visited again, so
what is left to expand in its replacement stays; a parse counts such replacements.

* `Regime.native`: a strict regime without plain modifiers.
* `areBare_stripNodes`: the stripped tree of resolved nodes without plain modifiers has no
  modifier.
* `parse_resolves`: nothing is left to expand if nothing was refused and nothing was
  replaced ahead of time.
-/

namespace MacroMarkup

/-- The definition is not plain, and one that makes definitions reads their bodies for
later. -/
def Definition.isNative (d : Definition) : Bool :=
  match d.behaviour with
  | .plain => false
  | .define _ => d.delaysContent
  | _ => true

theorem Definition.delaysContent_of_isNative {d : Definition} {kind : MacroKind}
    (h : d.isNative = true) (hkind : d.behaviour = .define kind) : d.delaysContent = true := by
  rwa [isNative, hkind] at h

theorem Definition.isPlain_of_isNative {d : Definition} (h : d.isNative = true) :
    d.isPlain = false := by
  rw [isPlain]
  split
  · rename_i hplain
    rw [isNative, hplain] at h
    cases h
  · rfl

/-- No modifier is plain, and expansions are resolved. -/
def Regime.native : Regime where
  strict := True
  delaying := True
  delaying_of_strict := id
  Admits d := d.isNative = true
  custom _ _ _ _ _ _ := rfl
  unknown _ _ := rfl
  delays _ _ _ := Definition.delaysContent_of_isNative

theorem areBare_stripNodes_of_forall {nodes : List Node}
    (h : ∀ n ∈ nodes, areBare (stripNode n) = true) : areBare (stripNodes nodes) = true := by
  induction nodes with
  | nil => rfl
  | cons node rest ih =>
    rw [stripNodes, areBare_append, h node List.mem_cons_self,
      ih fun n hn => h n (List.mem_cons_of_mem _ hn), Bool.and_self]

/-- What is left of a resolved node has no modifier if no plain one shows. -/
theorem areBare_stripNode {n : Node} (h : n.Shows fun d => d.isNative = true)
    (hresolved : n.isResolved = true) : areBare (stripNode n) = true := by
  induction h with
  | @leaf n hleaf =>
    cases n with
    | paragraph _ _ => cases hleaf
    | modifier _ => cases hleaf
    | _ => rfl
  | @paragraph span content _ ih =>
    rw [Node.isResolved] at hresolved
    have hcontent : areBare (stripNodes content) = true :=
      areBare_stripNodes_of_forall fun n hn => ih n hn (areResolved_iff.mp hresolved n hn)
    simp [stripNode, areBare, Node.isBare, hcontent]
  | @waiting m hm hnative _ _ =>
    obtain ⟨span, head, definition, arguments, content, expansion⟩ := m
    cases hm
    have hplain : definition.isPlain = false := Definition.isPlain_of_isNative hnative
    have hsystem : definition.kind = .system := by
      simpa [Node.isResolved, hplain] using hresolved
    simp [stripNode, hsystem, areBare]
  | @expanded m nodes hm _ ih =>
    obtain ⟨span, head, definition, arguments, content, expansion⟩ := m
    cases hm
    by_cases hsystem : definition.kind = .system
    · simp [stripNode, hsystem, areBare]
    · have hnodes : areResolved nodes = true := by
        simpa [Node.isResolved, hsystem] using hresolved
      simp only [stripNode, hsystem, if_false]
      exact areBare_stripNodes_of_forall fun n hn => ih n hn (areResolved_iff.mp hnodes n hn)

theorem Builtin.isNative : ∀ d ∈ Builtin.definitions, d.isNative = true := by decide

/-- **Nothing is left to expand** in a parse in which no list was refused and no modifier was
replaced ahead of time, in a fresh context over the modifiers that come with the language:
the stripped tree has paragraphs and text, and no modifier. -/
theorem parse_resolves {limit : Nat} {bindings : Dict String} {cx : Context}
    (hcx : Context.start { Builtin.configuration with depthLimit := limit } bindings = .ok cx)
    (source : String) :
    ∃ d, cx.parse source = .ok d ∧
      (d.refusals = 0 → d.anticipations = 0 → areBare d.strip.content = true) := by
  have hbuiltin : Builtin.configuration.All (Stock.Registered (Regime.native.stock (.start cx))) :=
    Builtin.all_configuration (Builtin.registered fun d hd _ => Builtin.isNative d hd)
  obtain ⟨hstores, hmacros⟩ := Builtin.stores_start hbuiltin hcx
  have hnone : cx.NothingDelayed := ⟨_, hmacros, fun kind => by cases kind <;> rfl⟩
  have he : (Engine.start cx).Sound .native := ⟨hstores, fun _ _ => hnone⟩
  obtain ⟨d, e, hd, hyields, -, -, hrefusals, hanticipations⟩ := ensures_read he source []
  refine ⟨d, hd, fun hr ha => ?_⟩
  have hclean : Regime.native.Clean e := ⟨trivial, hrefusals ▸ hr, hanticipations ▸ ha⟩
  have hresolved : areResolved d.content = true := hyields.areResolved ⟨rfl, hnone⟩ hclean
  refine areBare_stripNodes_of_forall fun n hn => ?_
  exact areBare_stripNode (hyields.shows trivial n hn) (areResolved_iff.mp hresolved n hn)

/-- A definition with a slot, used around a modifier. -/
theorem parse_resolves_box :
    let source := "[-define-block box][.slot]\n\n[.box][/print abc]"
    ∃ cx d, Context.start { Builtin.configuration with depthLimit := 10 } .empty = .ok cx ∧
      cx.parse source = .ok d ∧ d.refusals = 0 ∧ d.anticipations = 0 ∧
      areBare d.strip.content = true := by
  intro source
  have hcounts : ((Context.start { Builtin.configuration with depthLimit := 10 } .empty).bind
      fun cx => cx.parse source).toOption.map (fun d => (d.refusals, d.anticipations))
        = some (0, 0) := by
    decide +kernel
  obtain ⟨cx, hcx⟩ : ∃ cx, Context.start { Builtin.configuration with depthLimit := 10 } .empty
      = .ok cx := ⟨_, rfl⟩
  obtain ⟨d, hd, hbare⟩ := parse_resolves hcx source
  rw [hcx, Except.bind, hd] at hcounts
  have hpair : (d.refusals, d.anticipations) = (0, 0) := Option.some.inj hcounts
  have hr : d.refusals = 0 := congrArg Prod.fst hpair
  have ha : d.anticipations = 0 := congrArg Prod.snd hpair
  exact ⟨cx, d, hcx, hd, hr, ha, hbare hr ha⟩

/-- A slot that is replaced ahead of time is not looked at again, and a modifier in it stays. -/
example : ((Context.start Builtin.configuration .empty).bind fun cx => cx.parse
    "[-define-block p][.slot]\n\n[-define-block q][.p][.slot]\n\n[.q][/print abc]").toOption.map
      (fun d => (d.refusals, areBare d.strip.content)) = some (0, false) := by
  decide +kernel

end MacroMarkup
