import MacroMarkup.Proofs.Places
import MacroMarkup.Proofs.Resolution
import MacroMarkup.Proofs.Steady

/-!
# Walking again

Plain modifiers stay in the tree, so the engine comes back to what lies inside them with every
modifier around them.  What was processed where visits are immediate is finished: whenever it
is walked again it stays as it is, and so does everything else.

* `Regime.orderly`: definitions read the bodies that they define for later.  Then nothing is
  being read for later where visits are immediate.
* `AreFinished`: walking the nodes changes nothing.
* `processed_are_finished`: **what was processed is finished**, wherever in a parse this was.
-/

namespace MacroMarkup

/-- A modifier that makes definitions reads their bodies for later. -/
def Definition.Orderly (d : Definition) : Prop :=
  ∀ kind, d.behaviour = .define kind → d.delaysContent = true

def Regime.orderly : Regime where
  strict := False
  delaying := True
  delaying_of_strict := False.elim
  Admits := Definition.Orderly
  custom _ _ _ _ _ _ := nofun
  unknown _ _ := nofun
  delays _ _ kind hd := hd kind

def Stock.orderly : Stock :=
  .kept (fun _ => True) Definition.Orderly (fun _ _ _ _ _ _ => nofun) fun _ _ => nofun

theorem Stock.orderly_le (e : Engine) : Stock.orderly.Le (Regime.orderly.stock e) where
  fits _ hd := ⟨hd.1, fun n hn => (hd.2 n hn).mono fun _ _ => ⟨False.elim, fun h => h.1.elim⟩⟩
  keeps _ hn := Node.Kept.mono hn fun _ _ => ⟨False.elim, fun h => h.1.elim⟩

theorem Builtin.orderly {d : Definition} (hd : d ∈ Builtin.definitions) (stamp : Nat) :
    Definition.Orderly { d with stamp := stamp } :=
  fun _ => Definition.delaysContent_of_isNative (Builtin.isNative d hd)

/-- The nodes stay as they are whenever they are walked, in whatever state of the engine and
however deep.  If nothing is refused the walk is complete, and it changes nothing at all: no
variable, no registry, nothing in the store, and it emits no message. -/
def AreFinished (nodes : List Node) : Prop :=
  ∀ (levels : Nat) (e : Engine), ∃ complete e',
    process levels nodes e = .ok ((nodes, complete), e') ∧
      (e'.refusals = e.refusals → complete = true ∧ e' = e)

theorem areFinished_of_settled {E : List Node → Prop} {nodes : List Node}
    (h : ∀ n ∈ nodes, n.Settled E) : AreFinished nodes := by
  intro levels e
  obtain ⟨⟨nodes', complete⟩, e', hrun, hnodes, hrefuses⟩ :=
    (steady_process levels e nodes h).exists_ok
  cases hnodes
  exact ⟨complete, e', hrun, fun hsame => ⟨(hrefuses.complete hsame).1, hrefuses.eq hsame⟩⟩

/-- What is yielded where visits are immediate is finished, if nothing was refused. -/
theorem Engine.Yields.areFinished {R : Regime} {e e' : Engine} {nodes : List Node}
    (h : e.Yields R nodes e') (hdelaying : R.delaying) (he : e.Sound R) (hzero : e.delayDepth = 0)
    (hsame : e'.refusals = e.refusals) : AreFinished nodes :=
  areFinished_of_settled (h.settled ⟨hzero, he.tight hdelaying hzero⟩ hsame)

/-- **What was processed is finished.**  In a parse that starts where no definition is being
read, as in every balanced context, let nodes be walked, or read with the modifiers in them
expanded, at a place where visits are immediate, and let nothing be refused there.  Then these
nodes are finished, and so is the content of a document without refusals. -/
theorem processed_are_finished {cx : Context} (hcx : cx.Stores .orderly)
    (hnone : cx.NothingDelayed) :
    (∀ v : Visit, cx.Walks v → v.engine.delayDepth = 0 →
      ∃ nodes complete e', process v.levels v.nodes v.engine = .ok ((nodes, complete), e') ∧
        (e'.refusals = v.engine.refusals → AreFinished nodes)) ∧
    (∀ r nodes r', cx.Reads r → r.engine.delayDepth = 0 → r.Gets nodes r' →
      r'.engine.refusals = r.engine.refusals → AreFinished nodes) ∧
    ∀ source, ∃ d, cx.parse source = .ok d ∧ (d.refusals = 0 → AreFinished d.content) := by
  have hstart : (Engine.start cx).Sound .orderly :=
    ⟨hcx.mono (Stock.orderly_le _), fun _ _ => hnone⟩
  refine ⟨fun v hv hzero => ?_, fun r nodes r' hr hzero hgets hsame => ?_, fun source => ?_⟩
  · have hsound := hv.sound hstart
    obtain ⟨⟨nodes, complete⟩, e', hrun, hyields⟩ :=
      (lawful_process v.levels v.engine v.nodes hsound.sound hsound.keeps).exists_ok
    exact ⟨nodes, complete, e', hrun, hyields.areFinished trivial hsound.sound hzero⟩
  · have hsound := hr.sound hstart
    have hyields : r.engine.Yields Regime.orderly nodes r'.engine :=
      hgets.yields (W := Regime.orderly.world) hsound
    exact hyields.areFinished trivial hsound hzero hsame
  · obtain ⟨d, e, hd, hyields, -, -, hrefusals, -⟩ := ensures_read hstart source []
    refine ⟨d, hd, fun hr => hyields.areFinished trivial hstart rfl ?_⟩
    exact hrefusals.symm.trans hr

/-- A variable that is bound inside two plain modifiers is bound once. -/
theorem processed_are_finished_nested :
    let c := Builtin.configuration.set (.plain "box" .block .normal)
    let source := "[.box][.box]\n:--\n[-var x:1]\n[/$x]\n--:"
    ∃ cx d, Context.start c .empty = .ok cx ∧ cx.Stores .orderly ∧ cx.NothingDelayed ∧
      cx.parse source = .ok d ∧ d.refusals = 0 ∧ AreFinished d.content := by
  intro c source
  have hc : c.All Stock.orderly.Registered :=
    (Builtin.all_configuration (Builtin.registered fun _ hd => Builtin.orderly hd)).set
      fun _ => ⟨of_decide_eq_true rfl, nofun, fun n hn => by cases hn⟩
  have hrefusals : ((Context.start c .empty).bind fun cx => cx.parse source).toOption.map
      (·.refusals) = some 0 := by
    decide +kernel
  obtain ⟨cx, hcx⟩ : ∃ cx, Context.start c .empty = .ok cx := ⟨_, rfl⟩
  obtain ⟨hstores, hmacros⟩ := Context.stores_start hc (by decide) hcx
  have hnone : cx.NothingDelayed := ⟨_, hmacros, fun kind => by cases kind <;> rfl⟩
  obtain ⟨d, hd, hfinished⟩ := (processed_are_finished hstores hnone).2.2 source
  rw [hcx, Except.bind, hd] at hrefusals
  have hr : d.refusals = 0 := Option.some.inj hrefusals
  exact ⟨cx, d, hcx, hstores, hnone, hd, hr, hfinished hr⟩

end MacroMarkup
