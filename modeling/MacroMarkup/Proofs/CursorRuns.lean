import MacroMarkup.Proofs.Scanning

/-!
# Runs of a cursor

A cursor may be asked anything in any order.  A request that finds what it asks for consumes it, one
that fails consumes nothing, and a search that fails consumes all that is left.  So what was
consumed so far is always the source up to the cursor.

* `Cursor.EndsFirst`: the shortest beginning of a text that ends with a literal.
  `endsFirst_of_splitThrough?`, `splitThrough?_eq_none_iff`: a search finds just that, and fails
  just if the literal does not occur, by induction on the text.
* `Cursor.Request`, `Cursor.ask`, `Cursor.askAll`: what can be asked, one request, and a run of
  requests with what was answered and where.
* `Cursor.Outcome`: all that can come of one request; `Cursor.outcome_respond`.
* `Cursor.Exchange.Accounted`: what an exchange is on a source; `Cursor.accounted_exchange`.
* `Cursor.reads_askAll`: a run moves the cursor past all that its requests consume, by induction on
  the requests.
* `runs_account_for_source`: **whatever is asked, every character is accounted for.**
-/

namespace MacroMarkup

namespace Cursor

/-! ### Searching -/

/-- `passed` is the shortest beginning of `text` that ends with the literal. -/
structure EndsFirst (literal text passed : List Char) : Prop where
  begins : passed <+: text
  ends : literal <:+ passed
  shortest : ∀ other, other <+: text → literal <:+ other → passed.length ≤ other.length

variable {literal text passed after : List Char}

theorem EndsFirst.unique {passed' : List Char} (h : EndsFirst literal text passed)
    (h' : EndsFirst literal text passed') : passed = passed' := by
  have hle := h.shortest _ h'.begins h'.ends
  have hge := h'.shortest _ h.begins h.ends
  exact (List.prefix_of_prefix_length_le h.begins h'.begins hle).eq_of_length
    (Nat.le_antisymm hle hge)

theorem EndsFirst.occurs (h : EndsFirst literal text passed) : literal <:+: text :=
  h.ends.isInfix.trans h.begins.isInfix

/-- A literal that is next ends the shortest beginning. -/
theorem endsFirst_of_next (h : literal <+: text) : EndsFirst literal text literal :=
  ⟨h, List.suffix_rfl, fun _ _ hends => hends.length_le⟩

/-- One character further on, if the literal is not next. -/
theorem EndsFirst.cons {c : Char} (h : EndsFirst literal text passed)
    (hnext : ¬ literal <+: c :: text) : EndsFirst literal (c :: text) (c :: passed) where
  begins := List.cons_prefix_cons.mpr ⟨rfl, h.begins⟩
  ends := h.ends.trans (List.suffix_cons c passed)
  shortest other hbegins hends := by
    rcases List.prefix_cons_iff.mp hbegins with rfl | ⟨rest, rfl, hrest⟩
    · exact absurd (List.suffix_nil.mp hends ▸ List.nil_prefix) hnext
    · rcases List.suffix_cons_iff.mp hends with rfl | hinside
      · exact absurd hbegins hnext
      · exact Nat.succ_le_succ (h.shortest rest hrest hinside)

theorem splitThrough?_cons_of_next {c : Char} (h : literal <+: c :: text) :
    splitThrough? literal (c :: text) = some (literal, (c :: text).drop literal.length) := by
  rw [splitThrough?, if_pos (List.isPrefixOf_iff_prefix.mpr h)]

theorem splitThrough?_cons_of_not_next {c : Char} (h : ¬ literal <+: c :: text) :
    splitThrough? literal (c :: text)
      = (splitThrough? literal text).map fun (before, after) => (c :: before, after) := by
  rw [splitThrough?, if_neg fun hnext => h (List.isPrefixOf_iff_prefix.mp hnext)]

/-- **What a search passes** is the shortest beginning that ends with the literal. -/
theorem endsFirst_of_splitThrough? (h : splitThrough? literal text = some (passed, after)) :
    EndsFirst literal text passed ∧ text = passed ++ after := by
  induction text generalizing passed with
  | nil => cases h
  | cons c text ih =>
    by_cases hnext : literal <+: c :: text
    · rw [splitThrough?_cons_of_next hnext] at h
      obtain ⟨rfl, rfl⟩ := Prod.mk.inj (Option.some.inj h)
      exact ⟨endsFirst_of_next hnext, (List.prefix_iff_eq_append.mp hnext).symm⟩
    · rw [splitThrough?_cons_of_not_next hnext] at h
      obtain ⟨⟨before, rest⟩, hsplit, heq⟩ := Option.map_eq_some_iff.mp h
      obtain ⟨rfl, rfl⟩ := Prod.mk.inj heq
      obtain ⟨hfirst, rfl⟩ := ih hsplit
      exact ⟨hfirst.cons hnext, rfl⟩

/-- **A search fails** just if the literal does not occur. -/
theorem splitThrough?_eq_none_iff (hliteral : literal ≠ []) :
    splitThrough? literal text = none ↔ ¬ literal <:+: text := by
  induction text with
  | nil => simp [splitThrough?, hliteral]
  | cons c text ih =>
    rw [List.infix_cons_iff]
    by_cases hnext : literal <+: c :: text
    · simp [splitThrough?_cons_of_next hnext, hnext]
    · simp [splitThrough?_cons_of_not_next hnext, hnext, ih]

/-! ### Requests -/

inductive Request where
  | peek (literal : String)
  | accept (literal : String)
  | takeChar
  | takeBlank
  | takeThrough (literal : String)
  | slice (start stop : Nat)
deriving DecidableEq, Repr

inductive Reply where
  | found (yes : Bool)
  | char (c? : Option Char)
  | text (text? : Option String)
deriving DecidableEq, Repr

def respond (c : Cursor) : Request → Reply × Cursor
  | .peek literal => (.found (c.peek literal), c)
  | .accept literal =>
    let (found, c') := c.accept literal
    (.found found, c')
  | .takeChar =>
    match c.takeChar? with
    | some (x, c') => (.char (some x), c')
    | none => (.char none, c)
  | .takeBlank =>
    match c.takeBlank? with
    | some (x, c') => (.char (some x), c')
    | none => (.char none, c)
  | .takeThrough literal =>
    let (passed?, c') := c.takeThrough? literal
    (.text passed?, c')
  | .slice start stop => (.text (some (c.slice start stop)), c)

/-- The request looks for an empty literal where the cursor stands. -/
def Request.isEmptyLook : Request → Bool
  | .peek literal | .accept literal => literal.isEmpty
  | _ => false

/-- One request.  An empty literal cannot be looked for. -/
def ask (c : Cursor) (request : Request) : Except Fault (Reply × Cursor) :=
  if request.isEmptyLook then .error .emptyLiteral else .ok (c.respond request)

structure Exchange where
  request : Request
  before : Cursor
  reply : Reply
  behind : Cursor

/-- A run of requests: the exchanges in order, and the cursor in the end. -/
def askAll (c : Cursor) : List Request → Except Fault (List Exchange × Cursor)
  | [] => .ok ([], c)
  | request :: requests => do
    let (reply, c') ← c.ask request
    let (exchanges, last) ← c'.askAll requests
    return (⟨request, c, reply, c'⟩ :: exchanges, last)

def Reply.isFailure : Reply → Bool
  | .found yes => !yes
  | .char c? => c?.isNone
  | .text text? => text?.isNone

/-- What is asked for is not there, where this is what is left. -/
def Request.Misses (rest : List Char) : Request → Prop
  | .peek literal | .accept literal => ¬ literal.toList <+: rest
  | .takeChar => rest = []
  | .takeBlank => ∀ x ∈ rest.head?, isBlank x = false
  | .takeThrough literal => ¬ literal.toList <:+: rest
  | .slice _ _ => False

def Request.isSearch : Request → Bool
  | .takeThrough _ => true
  | _ => false

/-- The characters that an exchange has consumed, as its reply shows them.  A search that fails does
not show them: they are all that was left. -/
def Exchange.consumed (source : List Char) (x : Exchange) : List Char :=
  match x.request, x.reply with
  | .accept literal, .found true => literal.toList
  | .takeChar, .char (some c) => [c]
  | .takeBlank, .char (some c) => [c]
  | .takeThrough _, .text (some passed) => passed.toList
  | .takeThrough _, .text none => source.drop x.before.position
  | _, _ => []

def exchange (c : Cursor) (request : Request) : Exchange :=
  ⟨request, c, (c.respond request).1, (c.respond request).2⟩

/-! ### One request -/

/-- All that can come of a request where `rest` is left: its reply, and the characters consumed. -/
inductive Outcome (rest : List Char) : Request → Reply → List Char → Prop
  | next {literal : String} : literal.toList <+: rest →
      Outcome rest (.peek literal) (.found true) []
  | notNext {literal : String} : ¬ literal.toList <+: rest →
      Outcome rest (.peek literal) (.found false) []
  | accepted {literal : String} : literal.toList <+: rest →
      Outcome rest (.accept literal) (.found true) literal.toList
  | notAccepted {literal : String} : ¬ literal.toList <+: rest →
      Outcome rest (.accept literal) (.found false) []
  | char {c : Char} {behind : List Char} : rest = c :: behind →
      Outcome rest .takeChar (.char (some c)) [c]
  | noChar : rest = [] → Outcome rest .takeChar (.char none) []
  | blank {c : Char} {behind : List Char} : rest = c :: behind → isBlank c = true →
      Outcome rest .takeBlank (.char (some c)) [c]
  | noBlank : (∀ c ∈ rest.head?, isBlank c = false) → Outcome rest .takeBlank (.char none) []
  | through {literal : String} {passed : List Char} : EndsFirst literal.toList rest passed →
      Outcome rest (.takeThrough literal) (.text (some (String.ofList passed))) passed
  | exhausted {literal : String} : (literal ≠ "" → ¬ literal.toList <:+: rest) →
      Outcome rest (.takeThrough literal) (.text none) rest
  | cut {start stop : Nat} {text : String} :
      Outcome rest (.slice start stop) (.text (some text)) []

variable {c : Cursor} {rest source : List Char} {request : Request} {reply : Reply}

theorem peek_eq_true_iff {literal : String} : c.peek literal = true ↔ literal.toList <+: c.rest :=
  List.isPrefixOf_iff_prefix

theorem peek_eq_false_iff {literal : String} :
    c.peek literal = false ↔ ¬ literal.toList <+: c.rest := by
  rw [← peek_eq_true_iff, Bool.not_eq_true]

/-- **One request**: its outcome, and the cursor moves past what was consumed. -/
theorem outcome_respond (c : Cursor) (request : Request) :
    ∃ consumed, Outcome c.rest request (c.respond request).1 consumed ∧
      c.Reads consumed (c.respond request).2 := by
  cases request with
  | peek literal =>
    cases h : c.peek literal with
    | true =>
      rw [respond, h]
      exact ⟨_, .next (peek_eq_true_iff.mp h), .refl c⟩
    | false =>
      rw [respond, h]
      exact ⟨_, .notNext (peek_eq_false_iff.mp h), .refl c⟩
  | accept literal =>
    cases h : c.peek literal with
    | true =>
      have haccept : c.accept literal = (true, c.advance literal.toList.length) := if_pos h
      rw [respond, haccept]
      exact ⟨_, .accepted (peek_eq_true_iff.mp h), reads_literal h⟩
    | false =>
      rw [respond, accept_of_not_peek h]
      exact ⟨_, .notAccepted (peek_eq_false_iff.mp h), .refl c⟩
  | takeChar =>
    cases h : c.rest with
    | nil =>
      simp only [respond, takeChar?, h]
      exact ⟨_, .noChar rfl, .refl c⟩
    | cons x behind =>
      simp only [respond, takeChar?, h]
      exact ⟨_, .char rfl, rfl, h, rfl⟩
  | takeBlank =>
    cases h : c.rest with
    | nil =>
      simp only [respond, takeBlank?, h]
      exact ⟨_, .noBlank fun x hx => absurd hx (Option.not_mem_none x), .refl c⟩
    | cons x behind =>
      cases hx : isBlank x with
      | true =>
        simp only [respond, takeBlank?, h, hx, if_true]
        exact ⟨_, .blank rfl hx, rfl, h, rfl⟩
      | false =>
        simp only [respond, takeBlank?, h, hx, Bool.false_eq_true, if_false]
        refine ⟨_, .noBlank fun y hy => ?_, .refl c⟩
        rwa [← Option.some.inj hy]
  | takeThrough literal =>
    cases h : splitThrough? literal.toList c.rest with
    | none =>
      simp only [respond, takeThrough?, h]
      refine ⟨_, .exhausted fun hliteral => ?_, rfl, (List.append_nil _).symm, rfl⟩
      have hne : literal.toList ≠ [] := fun hnil => hliteral (String.toList_eq_nil_iff.mp hnil)
      exact (splitThrough?_eq_none_iff hne).mp h
    | some split =>
      obtain ⟨passed, behind⟩ := split
      obtain ⟨hfirst, hrest⟩ := endsFirst_of_splitThrough? h
      simp only [respond, takeThrough?, h]
      exact ⟨_, .through hfirst, rfl, hrest, rfl⟩
  | slice start stop => exact ⟨_, .cut, .refl c⟩

namespace Outcome

variable {consumed : List Char}

/-- A request fails just if what it asks for is not there. -/
theorem isFailure_iff (h : Outcome rest request reply consumed)
    (hsearch : request ≠ .takeThrough "") : reply.isFailure = true ↔ request.Misses rest := by
  cases h with
  | next h => exact iff_of_false nofun fun hmisses => hmisses h
  | notNext h => exact iff_of_true rfl h
  | accepted h => exact iff_of_false nofun fun hmisses => hmisses h
  | notAccepted h => exact iff_of_true rfl h
  | char h =>
    subst h
    exact iff_of_false nofun nofun
  | noChar h => exact iff_of_true rfl h
  | blank h hblank =>
    subst h
    refine iff_of_false nofun fun hmisses => ?_
    rw [hmisses _ rfl] at hblank
    cases hblank
  | noBlank h => exact iff_of_true rfl h
  | through h => exact iff_of_false nofun fun hmisses => hmisses h.occurs
  | exhausted h => exact iff_of_true rfl (h fun hempty => hsearch (hempty ▸ rfl))
  | cut => exact iff_of_false nofun id

/-- A request that fails consumes nothing, unless it is a search. -/
theorem consumed_eq_nil (h : Outcome rest request reply consumed) (hfails : reply.isFailure = true)
    (hsearch : request.isSearch = false) : consumed = [] := by
  cases h with
  | next | notNext | notAccepted | noChar | noBlank | cut => rfl
  | accepted | char | blank => cases hfails
  | through | exhausted => cases hsearch

theorem consumed_eq {x : Exchange} (h : Outcome rest x.request x.reply consumed)
    (hrest : source.drop x.before.position = rest) : x.consumed source = consumed := by
  obtain ⟨request, before, reply, behind⟩ := x
  cases h with
  | next | notNext | accepted | notAccepted | char | noChar | blank | noBlank | cut => rfl
  | through => exact String.toList_ofList
  | exhausted => exact hrest

theorem search {literal : String} (h : Outcome rest (.takeThrough literal) reply consumed)
    (hliteral : literal ≠ "") :
    (∀ passed, reply = .text (some passed) ↔ EndsFirst literal.toList rest passed.toList) ∧
    (reply = .text none ↔ ¬ literal.toList <:+: rest) ∧
    (reply = .text none → consumed = rest) := by
  cases h with
  | through hfirst =>
    refine ⟨fun passed => ⟨fun heq => ?_, fun hother => ?_⟩,
      iff_of_false nofun fun hmisses => hmisses hfirst.occurs, nofun⟩
    · obtain rfl := Option.some.inj (Reply.text.inj heq)
      rwa [String.toList_ofList]
    · rw [hfirst.unique hother, String.ofList_toList]
  | exhausted hmisses =>
    exact ⟨fun passed => iff_of_false nofun fun hfirst => hmisses hliteral hfirst.occurs,
      iff_of_true rfl (hmisses hliteral), fun _ => rfl⟩

end Outcome

theorem reads_exchange (hc : c.Anchored source) (request : Request) :
    c.Reads ((c.exchange request).consumed source) (c.exchange request).behind := by
  obtain ⟨consumed, hout, hreads⟩ := outcome_respond c request
  rwa [Outcome.consumed_eq (x := c.exchange request) hout hc.rest]

/-- What an exchange is on a source. -/
structure Exchange.Accounted (source : List Char) (x : Exchange) : Prop where
  forward : x.before.position ≤ x.behind.position
  inside : x.behind.position ≤ source.length
  consumed : cut source x.before.position x.behind.position = x.consumed source
  /-- It fails just if what is asked for is not there. -/
  failure : x.request ≠ .takeThrough "" →
    (x.reply.isFailure = true ↔ x.request.Misses (source.drop x.before.position))
  stays : x.reply.isFailure = true → x.request.isSearch = false →
    x.behind.position = x.before.position
  /-- A search finds the first place, and otherwise consumes everything. -/
  search : ∀ literal, x.request = .takeThrough literal → literal ≠ "" →
    (∀ passed, x.reply = .text (some passed) ↔
      EndsFirst literal.toList (source.drop x.before.position) passed.toList) ∧
    (x.reply = .text none ↔ ¬ literal.toList <:+: source.drop x.before.position) ∧
    (x.reply = .text none → x.behind.position = source.length)

theorem accounted_exchange (hc : c.Anchored source) (request : Request) :
    (c.exchange request).Accounted source := by
  obtain ⟨consumed, hout, hreads⟩ := outcome_respond c request
  have hpasses : c.Passes (c.respond request).2 := ⟨consumed, hreads⟩
  have hanchored := hpasses.anchored hc
  refine ⟨hpasses.position_le, hanchored.position, ?_, fun hsearch => ?_, fun hfails hsearch => ?_,
    fun literal hrequest hliteral => ?_⟩
  · rw [Outcome.consumed_eq (x := c.exchange request) hout hc.rest]
    exact hreads.cut_eq hc
  · show _ ↔ request.Misses (source.drop c.position)
    rw [hc.rest]
    exact hout.isFailure_iff hsearch
  · have hposition := hreads.position
    rw [hout.consumed_eq_nil hfails hsearch] at hposition
    exact hposition
  · obtain rfl : request = .takeThrough literal := hrequest
    obtain ⟨hfound, hnone, hall⟩ := hout.search hliteral
    show (∀ passed, _ ↔ EndsFirst _ (source.drop c.position) _) ∧
      (_ ↔ ¬ _ <:+: source.drop c.position) ∧ _
    rw [hc.rest]
    refine ⟨hfound, hnone, fun hfails => ?_⟩
    show (c.respond (.takeThrough literal)).2.position = source.length
    rw [hreads.position, hall hfails, hc.position_add_length]

/-! ### Runs -/

variable {requests : List Request} {exchanges : List Exchange} {last : Cursor}

theorem askAll_cons_eq_ok_iff : c.askAll (request :: requests) = .ok (exchanges, last) ↔
    request.isEmptyLook = false ∧ ∃ others,
      (c.exchange request).behind.askAll requests = .ok (others, last) ∧
      exchanges = c.exchange request :: others := by
  cases hlook : request.isEmptyLook with
  | true =>
    simp only [askAll, ask, hlook, if_true]
    exact iff_of_false nofun nofun
  | false =>
    have hask : c.ask request = .ok (c.respond request) := by
      rw [ask, hlook]
      rfl
    rw [askAll, hask]
    show ((c.exchange request).behind.askAll requests >>= fun run => _) = _ ↔ _
    cases (c.exchange request).behind.askAll requests with
    | error fault => exact iff_of_false nofun fun ⟨_, _, h, _⟩ => nomatch h
    | ok run =>
      obtain ⟨others, last'⟩ := run
      constructor
      · intro h
        cases h
        exact ⟨rfl, _, rfl, rfl⟩
      · rintro ⟨-, _, h, rfl⟩
        cases h
        rfl

/-- **A run comes to its end** unless it looks for an empty literal. -/
theorem exists_askAll_iff : (∃ run, c.askAll requests = .ok run) ↔
    ∀ request ∈ requests, request.isEmptyLook = false := by
  induction requests generalizing c with
  | nil => exact iff_of_true ⟨_, rfl⟩ nofun
  | cons request requests ih =>
    rw [List.forall_mem_cons, ← ih (c := (c.exchange request).behind)]
    constructor
    · rintro ⟨⟨exchanges, last⟩, h⟩
      obtain ⟨hlook, others, hrest, -⟩ := askAll_cons_eq_ok_iff.mp h
      exact ⟨hlook, _, hrest⟩
    · rintro ⟨hlook, ⟨others, last⟩, hrest⟩
      exact ⟨_, askAll_cons_eq_ok_iff.mpr ⟨hlook, others, hrest, rfl⟩⟩

theorem map_request_askAll (h : c.askAll requests = .ok (exchanges, last)) :
    exchanges.map (·.request) = requests := by
  induction requests generalizing c exchanges with
  | nil =>
    cases h
    rfl
  | cons request requests ih =>
    obtain ⟨-, others, hrest, rfl⟩ := askAll_cons_eq_ok_iff.mp h
    rw [List.map_cons, ih hrest]
    rfl

/-- **A run** moves the cursor past all that its requests consume. -/
theorem reads_askAll (hc : c.Anchored source) (h : c.askAll requests = .ok (exchanges, last)) :
    c.Reads (exchanges.flatMap (·.consumed source)) last := by
  induction requests generalizing c exchanges with
  | nil =>
    cases h
    exact .refl _
  | cons request requests ih =>
    obtain ⟨-, others, hrest, rfl⟩ := askAll_cons_eq_ok_iff.mp h
    have hfirst := reads_exchange hc request
    exact hfirst.trans (ih (Passes.anchored ⟨_, hfirst⟩ hc) hrest)

theorem accounted_askAll (hc : c.Anchored source)
    (h : c.askAll requests = .ok (exchanges, last)) : ∀ x ∈ exchanges, x.Accounted source := by
  induction requests generalizing c exchanges with
  | nil =>
    cases h
    exact nofun
  | cons request requests ih =>
    obtain ⟨-, others, hrest, rfl⟩ := askAll_cons_eq_ok_iff.mp h
    exact List.forall_mem_cons.mpr ⟨accounted_exchange hc request,
      ih (Passes.anchored ⟨_, reads_exchange hc request⟩ hc) hrest⟩

/-- The positions that a cursor has in a run, and none of them lies before the first, by induction
on the requests. -/
theorem positions_askAll (hc : c.Anchored source)
    (h : c.askAll requests = .ok (exchanges, last)) :
    (exchanges.map (·.before.position) ++ [last.position]).Pairwise (· ≤ ·) ∧
    ∀ p ∈ exchanges.map (·.before.position) ++ [last.position], c.position ≤ p := by
  induction requests generalizing c exchanges with
  | nil =>
    cases h
    exact ⟨List.pairwise_singleton _ _, fun p hp => (List.mem_singleton.mp hp).ge⟩
  | cons request requests ih =>
    obtain ⟨-, others, hrest, rfl⟩ := askAll_cons_eq_ok_iff.mp h
    have hpasses : c.Passes (c.exchange request).behind := ⟨_, reads_exchange hc request⟩
    obtain ⟨hordered, hfrom⟩ := ih (hpasses.anchored hc) hrest
    have hbehind : ∀ p ∈ others.map (·.before.position) ++ [last.position], c.position ≤ p :=
      fun p hp => Nat.le_trans hpasses.position_le (hfrom p hp)
    exact ⟨List.pairwise_cons.mpr ⟨hbehind, hordered⟩,
      List.forall_mem_cons.mpr ⟨Nat.le_refl _, hbehind⟩⟩

theorem anchored_ofString (source : String) (inspectors : List Inspector) :
    (ofString source inspectors).Anchored source.toList := ⟨rfl, Nat.zero_le _⟩

end Cursor

/-- **Whatever is asked, every character is accounted for.**  A run of requests comes to its end
unless it looks for an empty literal.  Its positions never decrease and stay inside of the source;
what its requests consumed, one behind the other, is the source up to the cursor.  A request fails
just if what it asks for is not there, and then it leaves the position alone unless it is a search;
a search passes the shortest beginning of the rest that ends with its literal, and consumes
everything just if there is none. -/
theorem runs_account_for_source (source : String) (inspectors : List Inspector)
    (requests : List Cursor.Request) :
    ((∃ run, (Cursor.ofString source inspectors).askAll requests = .ok run) ↔
      ∀ request ∈ requests, request.isEmptyLook = false) ∧
    ∀ exchanges last, (Cursor.ofString source inspectors).askAll requests = .ok (exchanges, last) →
      exchanges.map (·.request) = requests ∧
      (exchanges.map (·.before.position) ++ [last.position]).Pairwise (· ≤ ·) ∧
      last.position ≤ source.toList.length ∧
      exchanges.flatMap (·.consumed source.toList) = source.toList.take last.position ∧
      ∀ x ∈ exchanges, x.Accounted source.toList := by
  have hstart := Cursor.anchored_ofString source inspectors
  refine ⟨Cursor.exists_askAll_iff, fun exchanges last h => ?_⟩
  have hreads := Cursor.reads_askAll hstart h
  have hpasses : (Cursor.ofString source inspectors).Passes last := ⟨_, hreads⟩
  refine ⟨Cursor.map_request_askAll h, (Cursor.positions_askAll hstart h).1,
    (hpasses.anchored hstart).position, ?_, Cursor.accounted_askAll hstart h⟩
  have hcut := hreads.cut_eq hstart
  rw [← hcut]
  rfl

/-- A search that first meets the literal but for its last character, requests that fail, and a
search that comes to the end. -/
theorem runs_account_for_source_near_match :
    let requests : List Cursor.Request := [.takeThrough "--:", .takeChar, .peek "x", .accept "--",
      .takeBlank, .takeThrough "--:", .slice 1 3]
    (∀ request ∈ requests, request.isEmptyLook = false) ∧
    ∃ exchanges last,
      (Cursor.ofString "a---:é--b" []).askAll requests = .ok (exchanges, last) ∧
      exchanges.map (·.reply) = [.text (some "a---:"), .char (some 'é'), .found false, .found true,
        .char none, .text none, .text (some "--")] ∧
      last.position = 9 ∧
      exchanges.flatMap (·.consumed "a---:é--b".toList) = "a---:é--b".toList.take last.position ∧
      (exchanges.map (·.before.position) ++ [last.position]).Pairwise (· ≤ ·) ∧
      ∀ x ∈ exchanges, x.Accounted "a---:é--b".toList := by
  intro requests
  have hlooks : ∀ request ∈ requests, request.isEmptyLook = false := by decide
  obtain ⟨hends, haccounted⟩ := runs_account_for_source "a---:é--b" [] requests
  obtain ⟨⟨exchanges, last⟩, hrun⟩ := hends.mpr hlooks
  obtain ⟨-, hordered, -, hconsumed, hall⟩ := haccounted exchanges last hrun
  have hreplies : ((Cursor.ofString "a---:é--b" []).askAll requests).toOption.map
      (fun run => (run.1.map (·.reply), run.2.position)) = some ([.text (some "a---:"),
        .char (some 'é'), .found false, .found true, .char none, .text none, .text (some "--")],
        9) := by
    decide +kernel
  rw [hrun] at hreplies
  obtain ⟨hreplies, hlast⟩ := Prod.mk.inj (Option.some.inj hreplies)
  exact ⟨hlooks, exchanges, last, hrun, hreplies, hlast, hconsumed, hordered, hall⟩

end MacroMarkup
