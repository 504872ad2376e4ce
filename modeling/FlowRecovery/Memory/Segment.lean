import FlowRecovery.Word

/-!
# `FlowRecovery.Memory.Segment`: one permissioned range of memory

A segment is a base address, a size, the bytes that are initialised and
a set of permission bits. Bytes between the initialised ones and `size`
belong to the segment and read as zero.
-/

set_option autoImplicit false

namespace FlowRecovery

/-- The position of a segment in its image, as a 32-bit number. -/
abbrev SegmentId := Nat

/-- The identifier of the segment at a position. Positions that do not
fit share the largest identifier. -/
def SegmentId.ofPosition (position : Nat) : SegmentId := min position 0xffffffff

/-- A range of memory starting at `base`. The permission bits of `flags`
are 1 for execution, 2 for writing and 4 for reading; other bits are
carried along unread. -/
structure Segment where
  base : Word
  size : Word
  data : List UInt8
  flags : Nat
deriving DecidableEq, Repr

namespace Segment

/-- A segment exactly as long as its data. -/
def ofBytes (base : Word) (data : List UInt8) (flags : Nat) : Segment :=
  { base, size := BitVec.ofNat 64 data.length, data, flags }

/-- The permissions of code: readable and executable. -/
def codeFlags : Nat := 5

/-- The first address past the segment, or the largest address when the
segment would reach beyond it. -/
def limit (s : Segment) : Word :=
  Word.addSat s.base s.size.toNat

/-- Does `addr` lie between `base` and `limit`? -/
def contains (s : Segment) (addr : Word) : Bool :=
  decide (s.base ≤ addr) && decide (addr < s.limit)

/-- Does the segment hold code? -/
def isExecutable (s : Segment) : Bool := s.flags.testBit 0

/-- Read-only means that the write bit is clear. -/
def isReadOnly (s : Segment) : Bool := !s.flags.testBit 1

/-- Can the segment be read? -/
def isReadable (s : Segment) : Bool := s.flags.testBit 2

/-- Two segments are apart when one ends before the other begins. -/
def apart (s t : Segment) : Bool :=
  decide (s.limit ≤ t.base) || decide (t.limit ≤ s.base)

/-- The initialised bytes from `addr` on; none past the data. -/
def bytesFrom (s : Segment) (addr : Word) : List UInt8 :=
  s.data.drop (addr - s.base).toNat

/-- `len` bytes from `addr` on, zero where the data has ended. Positions
in the data are words: a read that goes on past the address space starts
over at the segment's first byte. -/
def readZeroFilled (s : Segment) (addr : Word) (len : Nat) : List UInt8 :=
  (List.range len).map fun i => s.data.getD (addr - s.base + BitVec.ofNat 64 i).toNat 0

/-- A zero-filled read is as long as it was asked to be. -/
@[simp] theorem length_readZeroFilled (s : Segment) (addr : Word) (len : Nat) :
    (s.readZeroFilled addr len).length = len := by
  rw [readZeroFilled, List.length_map, List.length_range]

/-- Containment as two inequalities. -/
theorem contains_iff (s : Segment) (addr : Word) :
    s.contains addr = true ↔ s.base ≤ addr ∧ addr < s.limit := by
  simp [contains]

end Segment

end FlowRecovery
