import MacroMarkup.Proofs.Run
import MacroMarkup.Proofs.Visible

/-!
# What a context keeps

A context keeps definitions and nodes in many places: in the live registries, in kept
notations, in recorded modules, and in the bodies of the invocations being processed.  A
`Stock` says what may be kept, and is closed under what the engine makes of it;
`Context.Stores` says that a context keeps nothing else, and that nothing is registered
under an empty name.

`Context.Agrees` compares what is open in two contexts: the definitions being read, the
invocations being processed, and the module being recorded.

* `Stores.restore`, `Stores.withMacros`, `Stores.define`, `Stores.setVariable`: what the
  modifiers do to a context keeps its stock.
* `Agrees.refl`, `Agrees.trans`: agreement is a preorder.
* `NothingDelayed`: no definition is being read; what agrees with such a context is one.
* `ensures_macros`, `ensures_modifyMacros`: reading and changing the state of the macros.
-/

namespace MacroMarkup

def Node.isLeaf : Node → Bool
  | .paragraph _ _ => false
  | .modifier _ => false
  | _ => true

/-- The nodes of a list that have parts, in order. -/
def compounds (nodes : List Node) : List Node := nodes.filter fun n => !n.isLeaf

@[simp] theorem compounds_append (a b : List Node) :
    compounds (a ++ b) = compounds a ++ compounds b := List.filter_append ..

@[simp] theorem compounds_reverse (nodes : List Node) :
    compounds nodes.reverse = (compounds nodes).reverse := List.filter_reverse ..

theorem compounds_eq_nil {nodes : List Node} (h : ∀ n ∈ nodes, n.isLeaf = true) :
    compounds nodes = [] :=
  List.filter_eq_nil_iff.mpr fun n hn => by simp [h n hn]

/-- A node of one of two lists with the same compounds is a leaf or in the other one. -/
theorem mem_or_isLeaf {nodes nodes' : List Node} (h : compounds nodes' = compounds nodes)
    {n : Node} (hn : n ∈ nodes') : n ∈ nodes ∨ n.isLeaf = true := by
  cases hleaf : n.isLeaf with
  | true => exact .inr rfl
  | false =>
    have hmem : n ∈ compounds nodes' := List.mem_filter.mpr ⟨hn, by rw [hleaf]; rfl⟩
    rw [h] at hmem
    exact .inl (List.mem_filter.mp hmem).1

/-- The nodes that the use of a definition made by a document stands for. -/
def Definition.body (d : Definition) : List Node :=
  match d.behaviour with
  | .custom _ _ _ _ body => body
  | _ => []

structure Stock where
  /-- The definitions that a modifier may have. -/
  Fits : Definition → Prop
  /-- The nodes that may be kept. -/
  Keeps : Node → Prop
  leaf : ∀ n, n.isLeaf = true → Keeps n
  paragraph : ∀ span content, Keeps (.paragraph span content) ↔ ∀ n ∈ content, Keeps n
  /-- A modifier that was not expanded yet may be kept with its definition and content. -/
  modifier : ∀ m : Modifier, m.expansion = none → (Keeps (.modifier m)
    ↔ Fits m.definition ∧ m.span.start ≤ m.head.stop ∧ ∀ n ∈ m.content, Keeps n)
  body : ∀ d, Fits d → ∀ n ∈ d.body, Keeps n
  custom : ∀ stamp kind name parameters slotName body, (∀ n ∈ body, Keeps n) →
    Fits { Definition.custom kind name parameters slotName body with stamp := stamp }
  unknown : ∀ kind head, Fits (.unknown kind head)

namespace Stock

def Registered (S : Stock) (d : Definition) : Prop := d.name ≠ "" ∧ S.Fits d

/-- A modifier, expanded or not, whose definition and content may be kept. -/
structure Sits (S : Stock) (m : Modifier) : Prop where
  fits : S.Fits m.definition
  placed : m.span.start ≤ m.head.stop
  content : ∀ n ∈ m.content, S.Keeps n

structure Le (S S' : Stock) : Prop where
  fits : ∀ d, S.Fits d → S'.Fits d
  keeps : ∀ n, S.Keeps n → S'.Keeps n

variable {S S' : Stock}

theorem Le.registered (h : S.Le S') (d : Definition) (hd : S.Registered d) : S'.Registered d :=
  ⟨hd.1, h.fits d hd.2⟩

theorem sits_iff {m : Modifier} (hm : m.expansion = none) : S.Sits m ↔ S.Keeps (.modifier m) := by
  rw [S.modifier m hm]
  exact ⟨fun h => ⟨h.fits, h.placed, h.content⟩, fun h => ⟨h.1, h.2.1, h.2.2⟩⟩

theorem keeps_text (span : Span) (content : String) : S.Keeps (.text span content) :=
  S.leaf _ rfl

theorem keeps_flattenInline : ∀ {nodes : List Node} (afterParagraph : Bool),
    (∀ n ∈ nodes, S.Keeps n) → ∀ n ∈ (flattenInline afterParagraph nodes).1, S.Keeps n := by
  intro nodes
  induction nodes with
  | nil => intro _ _ n hn; simp [flattenInline] at hn
  | cons node rest ih =>
    intro afterParagraph h
    have hrest : ∀ n ∈ rest, S.Keeps n := fun n hn => h n (List.mem_cons_of_mem _ hn)
    have hnode : S.Keeps node := h node List.mem_cons_self
    cases node with
    | paragraph span content =>
      cases afterParagraph with
      | true => simpa [flattenInline] using ih true hrest
      | false =>
        intro n hn
        simp only [flattenInline, Bool.false_eq_true, if_false, List.mem_append] at hn
        rcases hn with hn | hn
        · exact (S.paragraph span content).mp hnode n hn
        · exact ih true hrest n hn
    | modifier m =>
      by_cases hk : m.definition.kind = .system
      · intro n hn
        simp only [flattenInline, hk, if_true, List.mem_cons] at hn
        rcases hn with rfl | hn
        · exact hnode
        · exact ih false hrest n hn
      · simpa [flattenInline, hk] using ih afterParagraph hrest
    | text _ _ => simpa [flattenInline] using ih afterParagraph hrest
    | escaped _ _ => simpa [flattenInline] using ih afterParagraph hrest
    | preformatted _ _ _ => simpa [flattenInline] using ih afterParagraph hrest

end Stock

/-! ## The stock of a context -/

namespace Dict

variable {α : Type}

theorem mem_of_get? {d : Dict α} {key : String} {value : α} (h : d.get? key = some value) :
    ∃ entry ∈ d.entries, entry.2 = value := by
  obtain ⟨entries⟩ := d
  simp only [get?] at h
  induction entries with
  | nil => cases h
  | cons head rest ih =>
    rw [lookup] at h
    split at h
    · cases h
      exact ⟨head, List.mem_cons_self, rfl⟩
    · obtain ⟨entry, he, hv⟩ := ih h
      exact ⟨entry, List.mem_cons_of_mem _ he, hv⟩

theorem mem_entries_set {d : Dict α} {key : String} {value : α} {entry : String × α}
    (h : entry ∈ (d.set key value).entries) : entry ∈ d.entries ∨ entry.2 = value := by
  obtain ⟨entries⟩ := d
  simp only [set] at h ⊢
  induction entries with
  | nil => exact .inr (by rw [List.mem_singleton.mp h])
  | cons head rest ih =>
    rw [bind] at h
    split at h
    · rcases List.mem_cons.mp h with rfl | h
      · exact .inr rfl
      · exact .inl (List.mem_cons_of_mem _ h)
    · rcases List.mem_cons.mp h with rfl | h
      · exact .inl List.mem_cons_self
      · exact (ih h).imp (List.mem_cons_of_mem _) id

end Dict

namespace MacroState

/-- Whatever the macro modifiers remember is in stock. -/
structure Stores (S : Stock) (s : MacroState) : Prop where
  notations : ∀ r ∈ s.notations, r.All S.Registered
  modules : ∀ entry ∈ s.modules.entries, entry.2.All S.Registered
  frames : ∀ kind, ∀ frame ∈ s.frames kind, ∀ n ∈ frame.content, S.Keeps n

theorem Stores.mono {S S' : Stock} {s : MacroState} (h : s.Stores S) (le : S.Le S') :
    s.Stores S' :=
  ⟨fun r hr => (h.notations r hr).mono le.registered,
    fun entry he => (h.modules entry he).mono le.registered,
    fun kind frame hf n hn => le.keeps n (h.frames kind frame hf n hn)⟩

theorem stores_initial (S : Stock) : initial.Stores S where
  notations := by
    intro r hr
    cases hr
  modules := by
    intro entry he
    cases he
  frames := by
    intro kind frame hf
    cases kind <;> cases hf

/-- The same is open in both states. -/
structure Agrees (s t : MacroState) : Prop where
  delayed : ∀ kind, t.delayed kind = s.delayed kind
  frames : ∀ kind, t.frames kind = s.frames kind
  insideModule : t.insideModule = s.insideModule

theorem Agrees.refl (s : MacroState) : s.Agrees s := ⟨fun _ => rfl, fun _ => rfl, rfl⟩

theorem Agrees.trans {s t u : MacroState} (h : s.Agrees t) (g : t.Agrees u) : s.Agrees u :=
  ⟨fun kind => (g.delayed kind).trans (h.delayed kind),
    fun kind => (g.frames kind).trans (h.frames kind), g.insideModule.trans h.insideModule⟩

/-! ### The stacks, one kind at a time -/

variable {S : Stock} {s t : MacroState} {kind : MacroKind}

theorem delayed_setDelayed_of_ne {kind' : MacroKind} {delayed : List DelayedFrame}
    (h : kind' ≠ kind) : (s.setDelayed kind delayed).delayed kind' = s.delayed kind' := by
  cases kind <;> cases kind' <;> first | rfl | exact absurd rfl h

theorem frames_setFrames_of_ne {kind' : MacroKind} {frames : List Frame} (h : kind' ≠ kind) :
    (s.setFrames kind frames).frames kind' = s.frames kind' := by
  cases kind <;> cases kind' <;> first | rfl | exact absurd rfl h

@[simp] theorem frames_setDelayed (kind' : MacroKind) (delayed : List DelayedFrame) :
    (s.setDelayed kind delayed).frames kind' = s.frames kind' := by
  cases kind <;> cases kind' <;> rfl

@[simp] theorem delayed_setFrames (kind' : MacroKind) (frames : List Frame) :
    (s.setFrames kind frames).delayed kind' = s.delayed kind' := by
  cases kind <;> cases kind' <;> rfl

@[simp] theorem insideModule_setDelayed (delayed : List DelayedFrame) :
    (s.setDelayed kind delayed).insideModule = s.insideModule := by
  cases kind <;> rfl

@[simp] theorem insideModule_setFrames (frames : List Frame) :
    (s.setFrames kind frames).insideModule = s.insideModule := by
  cases kind <;> rfl

theorem Stores.setDelayed {delayed : List DelayedFrame} (h : s.Stores S) :
    (s.setDelayed kind delayed).Stores S := by
  cases kind with
  | block => exact ⟨h.notations, h.modules, h.frames⟩
  | inline => exact ⟨h.notations, h.modules, h.frames⟩

theorem Stores.setFrames {frames : List Frame} (h : s.Stores S)
    (hf : ∀ frame ∈ frames, ∀ n ∈ frame.content, S.Keeps n) :
    (s.setFrames kind frames).Stores S := by
  have hframes : ∀ kind', ∀ frame ∈ (s.setFrames kind frames).frames kind',
      ∀ n ∈ frame.content, S.Keeps n := by
    intro kind'
    by_cases hk : kind' = kind
    · subst hk
      rwa [frames_setFrames]
    · rw [frames_setFrames_of_ne hk]
      exact h.frames kind'
  cases kind with
  | block => exact ⟨h.notations, h.modules, hframes⟩
  | inline => exact ⟨h.notations, h.modules, hframes⟩

/-- Putting back the definitions that were being read undoes whatever was laid on them. -/
theorem Agrees.putBackDelayed {delayed : List DelayedFrame}
    (h : (s.setDelayed kind delayed).Agrees t) :
    s.Agrees (t.setDelayed kind (s.delayed kind)) := by
  refine ⟨fun kind' => ?_, fun kind' => ?_, ?_⟩
  · by_cases hk : kind' = kind
    · subst hk
      rw [delayed_setDelayed]
    · rw [delayed_setDelayed_of_ne hk, h.delayed, delayed_setDelayed_of_ne hk]
  · rw [frames_setDelayed, h.frames, frames_setDelayed]
  · rw [insideModule_setDelayed, h.insideModule, insideModule_setDelayed]

/-- Putting back the invocations that were being processed undoes whatever was laid on
them or set aside. -/
theorem Agrees.putBackFrames {frames : List Frame} (h : (s.setFrames kind frames).Agrees t) :
    s.Agrees (t.setFrames kind (s.frames kind)) := by
  refine ⟨fun kind' => ?_, fun kind' => ?_, ?_⟩
  · rw [delayed_setFrames, h.delayed, delayed_setFrames]
  · by_cases hk : kind' = kind
    · subst hk
      rw [frames_setFrames]
    · rw [frames_setFrames_of_ne hk, h.frames, frames_setFrames_of_ne hk]
  · rw [insideModule_setFrames, h.insideModule, insideModule_setFrames]

end MacroState

namespace Context

def withMacros (cx : Context) (s : MacroState) : Context :=
  { cx with store := { cx.store with macros := ⟨some s⟩ } }

@[simp] theorem macros_withMacros (cx : Context) (s : MacroState) :
    (cx.withMacros s).macros = .ok s := rfl

/-- Whatever the context keeps is in stock, and nothing is registered under an empty
name. -/
structure Stores (S : Stock) (cx : Context) : Prop where
  registries : cx.registries.All S.Registered
  systems : cx.configuration.systems.All S.Registered
  interpolators : cx.configuration.interpolators.All fun i => i.name ≠ "" ∧ i.closing ≠ ""
  macros : ∃ s, cx.macros = .ok s ∧ s.Stores S

/-- What is open in the first context is open in the second, and nothing else. -/
def Agrees (cx cx' : Context) : Prop :=
  ∀ s, cx.macros = .ok s → ∃ s', cx'.macros = .ok s' ∧ s.Agrees s'

theorem Agrees.refl (cx : Context) : cx.Agrees cx := fun s hs => ⟨s, hs, .refl s⟩

theorem Agrees.trans {cx cx' cx'' : Context} (h : cx.Agrees cx') (g : cx'.Agrees cx'') :
    cx.Agrees cx'' := by
  intro s hs
  obtain ⟨s', hs', ha⟩ := h s hs
  obtain ⟨s'', hs'', ha'⟩ := g s' hs'
  exact ⟨s'', hs'', ha.trans ha'⟩

theorem agrees_of_macros_eq {cx cx' : Context} (h : cx'.macros = cx.macros) : cx.Agrees cx' :=
  fun s hs => ⟨s, h.trans hs, .refl s⟩

theorem Agrees.exists_ok {cx cx' : Context} {s : MacroState} (h : cx.Agrees cx')
    (hs : cx.macros = .ok s) : ∃ s', cx'.macros = .ok s' ∧ s.Agrees s' := h s hs

theorem agrees_of_ok {cx cx' : Context} {s s' : MacroState} (hs : cx.macros = .ok s)
    (hs' : cx'.macros = .ok s') (h : s.Agrees s') : cx.Agrees cx' := by
  intro t ht
  rw [hs] at ht
  cases ht
  exact ⟨s', hs', h⟩

def NothingDelayed (cx : Context) : Prop :=
  ∃ s, cx.macros = .ok s ∧ ∀ kind, s.delayed kind = []

theorem NothingDelayed.of_agrees {cx cx' : Context} (h : cx.NothingDelayed)
    (hagrees : cx.Agrees cx') : cx'.NothingDelayed := by
  obtain ⟨s, hs, hnone⟩ := h
  obtain ⟨s', hs', hopen⟩ := hagrees s hs
  exact ⟨s', hs', fun kind => (hopen.delayed kind).trans (hnone kind)⟩

theorem NothingDelayed.delayed_eq_nil {cx : Context} {s : MacroState} (h : cx.NothingDelayed)
    (hs : cx.macros = .ok s) (kind : MacroKind) : s.delayed kind = [] := by
  obtain ⟨t, ht, hnone⟩ := h
  rw [hs] at ht
  cases ht
  exact hnone kind

theorem NothingDelayed.of_agrees_back {cx cx' : Context} {s : MacroState}
    (h : cx'.NothingDelayed) (hs : cx.macros = .ok s) (hagrees : cx.Agrees cx') :
    cx.NothingDelayed := by
  obtain ⟨s', hs', hopen⟩ := hagrees s hs
  exact ⟨s, hs, fun kind => (hopen.delayed kind).symm.trans (h.delayed_eq_nil hs' kind)⟩

/-- Changes of the state of the macros that leave the definitions being read alone. -/
theorem NothingDelayed.withMacros {cx cx' : Context} {s s' : MacroState}
    (h : cx.NothingDelayed) (hs : cx.macros = .ok s)
    (hdelayed : ∀ kind, s'.delayed kind = s.delayed kind) : (cx'.withMacros s').NothingDelayed :=
  ⟨s', rfl, fun kind => (hdelayed kind).trans (h.delayed_eq_nil hs kind)⟩

namespace Stores

variable {S S' : Stock} {cx : Context}

theorem mono (h : cx.Stores S) (le : S.Le S') : cx.Stores S' := by
  obtain ⟨s, hs, hst⟩ := h.macros
  exact ⟨h.registries.mono le.registered, h.systems.mono le.registered, h.interpolators,
    s, hs, hst.mono le⟩

theorem of_macros {s : MacroState} (h : cx.Stores S) (hs : cx.macros = .ok s) : s.Stores S := by
  obtain ⟨t, ht, hst⟩ := h.macros
  rw [hs] at ht
  cases ht
  exact hst

theorem withMacros {s : MacroState} (h : cx.Stores S) (hs : s.Stores S) :
    (cx.withMacros s).Stores S :=
  ⟨h.registries, h.systems, h.interpolators, s, rfl, hs⟩

theorem restore {r : Registries} (h : cx.Stores S) (hr : r.All S.Registered) :
    (cx.restore r).Stores S :=
  ⟨hr, h.systems, h.interpolators, h.macros⟩

theorem setVariable (h : cx.Stores S) (name value : String) :
    (cx.setVariable name value).Stores S :=
  ⟨h.registries, h.systems, h.interpolators, h.macros⟩

theorem changed (h : cx.Stores S) : cx.configurationChanged.Stores S :=
  ⟨h.registries, h.systems, h.interpolators, h.macros⟩

theorem define {kind : MacroKind} {name slotName : String} {parameters : List String}
    {body : List Node} (h : cx.Stores S) (hname : name ≠ "") (hbody : ∀ n ∈ body, S.Keeps n) :
    let d := Definition.custom kind name parameters slotName body
    Stores S { cx with configuration := cx.configuration.set d } := by
  intro d
  have hd : S.Registered { d with stamp := cx.configuration.nextStamp } :=
    ⟨hname, S.custom _ _ _ _ _ _ hbody⟩
  cases kind with
  | block =>
    exact ⟨⟨h.registries.1.set hd, h.registries.2⟩, h.systems, h.interpolators, h.macros⟩
  | inline =>
    exact ⟨⟨h.registries.1, h.registries.2.set hd⟩, h.systems, h.interpolators, h.macros⟩

end Stores

end Context

/-! ## Steps on the state of the macros -/

variable {α : Type} {allows : Fault → Prop} {cx : Context} {s : MacroState}

/-- Where the state of the macros is there, nothing fails for want of it. -/
theorem allows_of_macros (hs : cx.macros = .ok s) :
    ∀ fault, cx.macros = .error fault → allows fault := by
  intro fault hfault
  rw [hs] at hfault
  cases hfault

theorem ensures_macros {post : MacroState → Context → Prop} (hs : cx.macros = .ok s) :
    Ensures allows Step.macros cx post ↔ post s cx := by
  simp only [Ensures, Step.macros, hs, bind, Except.bind, pure, Except.pure]

theorem ensures_modifyMacros {f : MacroState → MacroState} {post : Unit → Context → Prop}
    (hs : cx.macros = .ok s) :
    Ensures allows (Step.modifyMacros f) cx post ↔ post () (cx.withMacros (f s)) := by
  have hslot : cx.store.macros.value? = some s := by
    revert hs
    simp only [Context.macros, Slot.get]
    cases cx.store.macros.value? with
    | none => intro h; cases h
    | some t => intro h; cases h; rfl
  simp only [Ensures, Step.modifyMacros, Context.modifyMacros, hs, Slot.set, hslot, bind,
    Except.bind, pure, Except.pure, Option.isSome_some, if_true]
  rfl

end MacroMarkup
