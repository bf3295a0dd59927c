import MacroMarkup.Proofs.ChainedReading
import MacroMarkup.Proofs.Progress

/-!
# Where diagnostics are put

Spans are made while the source is read, between places of the cursor, and everything else only
hands them on.  So in a fresh context all offsets that occur lie in the source, and whatever is
reported is reported there.  What a message repeats is about the same problem, and its chain tells
which modifiers were being processed when it was started.

* `Message.links`: a message and those that it repeats, the outermost first.
* `Fix.Inside`: the edit lies inside a source of that length.
* `Message.WellPlaced`: all links of the chain lie in the source and agree, and only the innermost
  carries fixes.
* `messages_well_placed`: **so it is for all messages of a parse in a fresh context, and the chain
  of each of them lists the modifiers that were being processed.**
-/

namespace MacroMarkup

/-- The message and those that it repeats, the outermost first. -/
def Message.links (m : Message) : List Message := m :: m.trail

def Fix.Inside (length : Nat) : Fix → Prop
  | .insert _ position _ => position ≤ length
  | .remove _ position removed => position + removed ≤ length

def Message.range (m : Message) : Nat × Nat := (m.position, m.length)

def Span.range (s : Span) : Nat × Nat := (s.start, s.length)

/-- All links of the chain lie in a source of this length and agree, and only the innermost one
carries fixes, which lie in the source too.  A missing mark may be put behind the end. -/
structure Message.WellPlaced (length : Nat) (m : Message) : Prop where
  starts : ∀ link ∈ m.links, link.position ≤ length
  stops : ∀ link ∈ m.links, ¬ (link.severity = .error ∧ link.code = 1) →
    link.position + link.length ≤ length
  agree : ∀ link ∈ m.links,
    link.severity = m.severity ∧ link.code = m.code ∧ link.info = m.info
  fixes : ∀ link ∈ m.links, ∀ fix ∈ link.fixes, link.referredFrom = none ∧ fix.Inside length

variable {trail : List Processing} {m : Message}

/-! ### Chains -/

/-- What holds of a message and passes on when it is reported again holds along its chain. -/
theorem Message.forall_links_along {Q : Message → Prop} (hm : ∀ link ∈ m.links, Q link)
    (hagain : ∀ x ∈ trail, ∀ inner, Q inner → Q (inner.referred x.modifier.span)) :
    ∀ link ∈ (m.along trail).links, Q link := by
  induction trail with
  | nil => exact hm
  | cons x trail ih =>
    obtain ⟨hx, htrail⟩ := List.forall_mem_cons.mp hagain
    have hinner := ih htrail
    refine List.forall_mem_cons.mpr ⟨?_, hinner⟩
    exact hx _ (hinner _ List.mem_cons_self)

/-- The links of a chain but the innermost lie where the modifiers do at which it was reported
again. -/
theorem Message.ranges_along (hm : m.referredFrom = none) :
    (m.along trail).links.dropLast.map Message.range = trail.map (·.modifier.span.range) := by
  induction trail with
  | nil =>
    obtain ⟨severity, position, length, code, info, fixes, referredFrom⟩ := m
    cases hm
    rfl
  | cons x trail ih =>
    have hlinks : (m.along (x :: trail)).links
        = (m.along trail).referred x.modifier.span :: (m.along trail).links := rfl
    have hne : (m.along trail).links ≠ [] := List.cons_ne_nil _ _
    rw [hlinks, List.dropLast_cons_of_ne_nil hne, List.map_cons, List.map_cons, ih]
    rfl

/-! ### Fresh messages -/

theorem Span.add_length_le {length : Nat} {s : Span} (hstart : s.start ≤ length)
    (hstop : s.stop ≤ length) : s.start + s.length ≤ length := by
  rw [Span.length]
  omega

/-- A fix edits where its message is. -/
theorem Problem.inside_fixes {length : Nat} {p : Problem} {span : Span}
    (hstart : span.start ≤ length) (hstop : span.stop ≤ length ∨ ∃ what, p = .expected what) :
    ∀ fix ∈ p.fixes span, fix.Inside length := by
  cases p with
  | redundantNewlines =>
    have hstop' : span.stop ≤ length := hstop.resolve_right fun ⟨_, h⟩ => by cases h
    exact List.forall_mem_singleton.mpr (Span.add_length_le hstart hstop')
  | unknownModifier name => exact List.forall_mem_singleton.mpr hstart
  | blockInsideLine => exact List.forall_mem_singleton.mpr hstart
  | groupContentInsideLine => exact List.forall_mem_singleton.mpr hstart
  | _ => exact List.forall_mem_nil _

/-- **A message that starts a chain in the source is well placed, and so is whatever reports it
again there.** -/
theorem Message.Fresh.wellPlaced {length : Nat} (hm : m.Fresh (· ≤ length))
    (htrail : ∀ x ∈ trail, x.modifier.span.Located (· ≤ length)) :
    (m.along trail).WellPlaced length := by
  obtain ⟨p, span, rfl, hstart, hstop⟩ := hm
  let good (link : Message) : Prop :=
    (link.position ≤ length ∧
      (¬ (link.severity = .error ∧ link.code = 1) → link.position + link.length ≤ length)) ∧
    (link.severity = p.severity ∧ link.code = p.code ∧ link.info = p.info) ∧
    ∀ fix ∈ link.fixes, link.referredFrom = none ∧ fix.Inside length
  have hgood : ∀ link ∈ ((p.message span).along trail).links, good link := by
    refine Message.forall_links_along (List.forall_mem_singleton.mpr ?_) fun x hx inner hinner => ?_
    · refine ⟨⟨hstart, fun hcode => ?_⟩, ⟨rfl, rfl, rfl⟩, fun fix hfix => ⟨rfl, ?_⟩⟩
      · rcases hstop with hstop | ⟨what, rfl⟩
        · exact Span.add_length_le hstart hstop
        · exact absurd ⟨rfl, rfl⟩ hcode
      · exact Problem.inside_fixes hstart hstop fix hfix
    · obtain ⟨-, hsame, -⟩ := hinner
      have hspan := htrail x hx
      exact ⟨⟨hspan.start, fun _ => Span.add_length_le hspan.start hspan.stop⟩, hsame,
        List.forall_mem_nil _⟩
  have htop := (hgood _ List.mem_cons_self).2.1
  refine ⟨fun link hlink => (hgood link hlink).1.1, fun link hlink => (hgood link hlink).1.2,
    fun link hlink => ?_, fun link hlink => (hgood link hlink).2.2⟩
  obtain ⟨hseverity, hcode, hinfo⟩ := (hgood link hlink).2.1
  exact ⟨hseverity.trans htop.1.symm, hcode.trans htop.2.1.symm, hinfo.trans htop.2.2.symm⟩

/-! ### Fresh contexts -/

theorem Context.located_start {P : Nat → Prop} {c : Configuration} {bindings : Dict String}
    {cx : Context} (hc : c.All fun d => d.body = []) (h : Context.start c bindings = .ok cx) :
    cx.Located P := by
  have hlocated : c.All (·.Located P) := hc.mono fun d hd n hn => by
    rw [hd] at hn
    cases hn
  unfold Context.start at h
  cases hstore : c.initializers.foldlM Store.setUp .vacant with
  | error fault =>
    rw [hstore] at h
    cases h
  | ok store =>
    rw [hstore] at h
    cases h
    refine ⟨⟨hlocated.blocks, hlocated.inlines⟩, hlocated.systems, fun s hs => ?_⟩
    have hs' : store.macros.get = .ok s := hs
    by_cases hmacros : .macros ∈ c.initializers
    · rw [Store.macros_setUpAll hstore (.inr hmacros)] at hs'
      cases hs'
      refine ⟨List.forall_mem_nil _, List.forall_mem_nil _, fun kind => ?_⟩
      cases kind <;> exact List.forall_mem_nil _
    · rw [Store.macros_of_not_mem hstore hmacros] at hs'
      cases hs'

/-- **Diagnostics are well placed.**  In a fresh context, whose configuration holds no definition
that a document made, a parse ends, or it fails for want of the state of the macros.  Each message
that it leaves lies in the source with all that it repeats, and was emitted, behind the messages
before it, between two points of the parse; its chain lists the modifiers that were being processed
there, the outermost first. -/
theorem messages_well_placed {c : Configuration} {bindings : Dict String} {cx : Context}
    (hc : c.All fun d => d.body = []) (hcx : Context.start c bindings = .ok cx)
    (source : String) :
    (c.All Stock.placed.Registered → (∃ d, cx.parse source = .ok d) ∨
      .macros ∉ c.initializers ∧ cx.parse source = .error .missingSlot) ∧
    ∀ d, cx.parse source = .ok d → ∀ earlier m later, d.messages = earlier ++ m :: later →
      m.WellPlaced source.toList.length ∧
      ∃ trail e e', cx.Speaks source trail e e' ∧ e.Adds m earlier.reverse e' ∧
        m.links.dropLast.map Message.range = trail.map (·.modifier.span.range) := by
  refine ⟨fun hregistered => (parse_fresh hregistered hcx source).imp_left
    fun ⟨d, hd, _⟩ => ⟨d, hd⟩, fun d hd earlier m later hmessages => ?_⟩
  have hlocated : cx.Located (· ≤ source.toList.length) := Context.located_start hc hcx
  obtain ⟨hutters, -, -⟩ := parse_utters (fun _ h => h) hlocated hd
  obtain ⟨trail, e, e', fresh, hspeaks, hadds, hfresh, htrail, rfl⟩ :=
    hutters earlier m later hmessages
  refine ⟨hfresh.wellPlaced htrail, trail, e, e', hspeaks, hadds, Message.ranges_along ?_⟩
  obtain ⟨p, span, rfl, -⟩ := hfresh
  rfl

/-- A missing mark behind the end of the source, and a variable without a value in a definition
that is used in another one. -/
theorem messages_well_placed_nested :
    let source := "[-define-block p][/$ x]\n[-define-block q][.p;]\n[.q;"
    ∃ cx d, Context.start Builtin.configuration .empty = .ok cx ∧ cx.parse source = .ok d ∧
      d.messages.map (fun m => (m.code, m.links.map Message.range))
        = [(1, [(51, 1)]), (5, [(47, 4), (41, 5), (21, 1)])] ∧
      ∀ earlier m later, d.messages = earlier ++ m :: later →
        m.WellPlaced source.toList.length ∧
        ∃ trail e e', cx.Speaks source trail e e' ∧ e.Adds m earlier.reverse e' ∧
          m.links.dropLast.map Message.range = trail.map (·.modifier.span.range) := by
  intro source
  have hbodies : ∀ d ∈ Builtin.definitions, d.body.isEmpty = true := by decide
  have hc : Builtin.configuration.All fun d => d.body = [] :=
    Builtin.all_configuration fun d hd _ => List.isEmpty_iff.mp (hbodies d hd)
  have hregistered : Builtin.configuration.All Stock.placed.Registered :=
    Builtin.all_configuration (Builtin.registered fun _ _ _ => trivial)
  obtain ⟨cx, hcx⟩ : ∃ cx, Context.start Builtin.configuration .empty = .ok cx := ⟨_, rfl⟩
  have hmessages : ((Context.start Builtin.configuration .empty).bind
      fun cx => cx.parse source).toOption.map
        (·.messages.map fun m => (m.code, m.links.map Message.range))
          = some [(1, [(51, 1)]), (5, [(47, 4), (41, 5), (21, 1)])] := by
    decide +kernel
  obtain ⟨hends, hplaced⟩ := messages_well_placed hc hcx source
  obtain ⟨d, hd⟩ := (hends hregistered).resolve_right fun h => h.1 Builtin.sets_up_macros
  rw [hcx, Except.bind, hd] at hmessages
  exact ⟨cx, d, hcx, hd, Option.some.inj hmessages, hplaced d hd⟩

end MacroMarkup
