import MacroMarkup.Document.Strip

/-!
# Repairing a source

A source is repaired by its first diagnostic that offers a fix, and then read anew, as a
fix is made for the source that it was offered for.

* `Document.firstFix?`: the first message whose origin has a fix, and that fix.
* `repair`: up to a number of rounds, and what each one did.
-/

namespace MacroMarkup

def Message.firstFix? (message : Message) : Option Fix := message.origin.fixes.head?

def Document.firstFix? (d : Document) : Option (Message × Fix) :=
  d.messages.findSome? fun message => message.firstFix?.map fun fix => (message, fix)

inductive Round where
  /-- A message was answered by a fix; the source and the cursor are those after it. -/
  | fixed (messageCount : Nat) (message : Message) (fix : Fix) (source : String) (cursor : Nat)
  /-- No message offered a fix. -/
  | settled (document : Document)

/-- Repairs a source up to `limit` times, each time in a fresh context. -/
def repair (cx : Context) : (limit : Nat) → (source : String) → (cursor : Nat) →
    Except Fault (List Round)
  | 0, _, _ => return []
  | limit + 1, source, cursor => do
    let document ← cx.parse source
    match document.firstFix? with
    | none => return [.settled document]
    | some (message, fix) =>
      let (source, cursor) ← fix.apply source cursor
      let rounds ← repair cx limit source cursor
      return .fixed document.messages.length message fix source cursor :: rounds

theorem length_repair_le (cx : Context) (limit : Nat) (source : String) (cursor : Nat)
    (rounds : List Round) (h : repair cx limit source cursor = .ok rounds) :
    rounds.length ≤ limit := by
  induction limit generalizing source cursor rounds with
  | zero =>
    cases h
    exact Nat.le_refl 0
  | succ limit ih =>
    unfold repair at h
    cases hd : cx.parse source with
    | error e => rw [hd] at h; cases h
    | ok document =>
      rw [hd] at h
      change (match document.firstFix? with
        | none => _
        | some (message, fix) => _) = _ at h
      split at h
      · cases h
        exact Nat.succ_le_succ (Nat.zero_le limit)
      · rename_i message fix _
        cases ha : fix.apply source cursor with
        | error e => rw [ha] at h; cases h
        | ok edit =>
          rw [ha] at h
          change ((repair cx limit edit.1 edit.2) >>= _) = _ at h
          cases hr : repair cx limit edit.1 edit.2 with
          | error e => rw [hr] at h; cases h
          | ok rest =>
            rw [hr] at h
            cases h
            exact Nat.succ_le_succ (ih _ _ _ hr)

end MacroMarkup
