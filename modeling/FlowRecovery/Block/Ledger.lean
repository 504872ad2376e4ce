import FlowRecovery.Block

/-!
# `FlowRecovery.Block.Ledger`: block numbers and finished blocks

Numbers are handed out before their blocks exist, so that a branch can
name its targets. The ledger takes each number back exactly once, with
its block, and in increasing order. `push_eq_ok_iff` says which blocks it
takes.
-/

set_option autoImplicit false

namespace FlowRecovery

/-- Numbers handed out and blocks finished in one unit of discovery. -/
structure Ledger where
  /-- The next number to hand out. -/
  next : BlockIndex := 0
  /-- The number finished last. -/
  last : Option BlockIndex := none
  /-- Finished blocks not yet taken, in the order they finished. -/
  finished : List Block := []
  /-- The numbers of all blocks finished and not dropped since. -/
  emitted : List BlockIndex := []
deriving DecidableEq, Repr

namespace Ledger

/-- Hand out the next number. -/
def alloc (l : Ledger) : BlockIndex × Ledger :=
  (l.next, { l with next := l.next + 1 })

/-- Record a finished block. -/
def push (l : Ledger) (b : Block) : Except Violation Ledger :=
  if l.next ≤ b.index then .error (.unallocatedBlock b.index)
  else if l.emitted.contains b.index then .error (.duplicateBlock b.index)
  else
    match l.last.filter (b.index < ·) with
    | some last => .error (.outOfOrderBlock b.index last)
    | none =>
      .ok { l with
        last := some b.index
        finished := l.finished ++ [b]
        emitted := b.index :: l.emitted }

/-- Drop the blocks after the first `kept` and hand out numbers from
`next` again. -/
def truncate (l : Ledger) (kept : Nat) (next : BlockIndex) : Ledger :=
  let dropped := (l.finished.drop kept).map Block.index
  let finished := l.finished.take kept
  { next
    last := finished.getLast?.map Block.index
    finished
    emitted := l.emitted.filter (!dropped.contains ·) }

/-- Take the finished blocks out. Their numbers stay taken. -/
def take (l : Ledger) : List Block × Ledger :=
  (l.finished, { l with finished := [] })

/-- A block is taken exactly if its number has been handed out, has not
come back before, and is not below the last one that did. -/
theorem push_eq_ok_iff {l l' : Ledger} {b : Block} :
    l.push b = .ok l' ↔
      (b.index < l.next ∧ b.index ∉ l.emitted ∧ ∀ last, l.last = some last → last ≤ b.index) ∧
      l' = { l with
        last := some b.index
        finished := l.finished ++ [b]
        emitted := b.index :: l.emitted } := by
  unfold push
  by_cases hnext : l.next ≤ b.index
  · simp [hnext, Nat.not_lt.2 hnext]
  by_cases hemitted : b.index ∈ l.emitted
  · simp [hnext, hemitted]
  have hlt : b.index < l.next := Nat.not_le.1 hnext
  cases hlast : l.last with
  | none => simp [hnext, hemitted, hlt, eq_comm]
  | some last =>
    by_cases hle : last ≤ b.index
    · have hfilter : (some last).filter (b.index < ·) = none := by simpa using hle
      simp [hnext, hemitted, hlt, hle, hfilter, eq_comm]
    · have hfilter : (some last).filter (b.index < ·) = some last := by simp [Nat.not_le.1 hle]
      simp [hnext, hemitted, hle, hfilter]

end Ledger

end FlowRecovery
