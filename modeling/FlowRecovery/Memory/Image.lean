import FlowRecovery.Memory.Segment

/-!
# `FlowRecovery.Memory.Image`: the memory of a program

An image is a byte order and a list of segments that do not overlap. It
is built once, by `Image.add`, and only read afterwards. Reads never
cross a segment's end, and `readOnlyUInt?` answers only where the
program cannot change what is there.
-/

set_option autoImplicit false

namespace FlowRecovery

/-- Which byte of a number comes first in memory. -/
inductive ByteOrder where
  | little
  | big
deriving DecidableEq, Repr

/-- The number that `bytes` spell in this order. Little-endian bytes are
put in place one by one, big-endian ones are shifted in from the right. -/
def ByteOrder.decode : ByteOrder → List UInt8 → Word
  | .little, bytes =>
    bytes.zipIdx.foldl (fun acc b => acc ||| (b.1.toBitVec.setWidth 64 : Word) <<< (b.2 * 8)) 0
  | .big, bytes => bytes.foldl (fun acc b => acc <<< 8 ||| b.toBitVec.setWidth 64) 0

/-- The sizes in bytes that one memory access may have. -/
def isAccessSize (bytes : Nat) : Bool :=
  bytes == 1 || bytes == 2 || bytes == 4 || bytes == 8

/-- Why memory could not be read or laid out. -/
inductive MemoryError where
  | unmapped (addr : Word)
  | crossesSegment (addr : Word) (len : Nat)
  | unsupportedWidth (bytes : Nat)
  | overlap (base : Word)
deriving DecidableEq, Repr

/-- The text of the error. -/
def MemoryError.message : MemoryError → String
  | .unmapped addr => s!"address {addr.hex} is not mapped"
  | .crossesSegment addr len => s!"read of {len} bytes at {addr.hex} crosses segment end"
  | .unsupportedWidth bytes => s!"unsupported read width: {bytes} bytes"
  | .overlap base => s!"segment at {base.hex} overlaps an existing segment"

/-- The memory of a program: its segments in the order they were added. -/
structure Image where
  order : ByteOrder := .little
  segments : List Segment := []
deriving DecidableEq, Repr

namespace Image

/-- An image of one code segment that holds `code`. -/
def ofCode (order : ByteOrder) (base : Word) (code : List UInt8) : Image :=
  { order, segments := [Segment.ofBytes base code Segment.codeFlags] }

/-- Append a segment that is apart from all present ones. The identifier
is that of its position. -/
def add (img : Image) (s : Segment) : Except MemoryError (SegmentId × Image) :=
  if img.segments.all s.apart then
    .ok (.ofPosition img.segments.length, { img with segments := img.segments ++ [s] })
  else
    .error (.overlap s.base)

/-- The segment with this identifier. -/
def segment? (img : Image) (id : SegmentId) : Option Segment :=
  img.segments[id]?

/-- The first segment that contains `addr`. -/
def segmentAt? (img : Image) (addr : Word) : Option Segment :=
  img.segments.find? (·.contains addr)

/-- The identifier of the first segment that contains `addr`. -/
def segmentIdAt? (img : Image) (addr : Word) : Option SegmentId :=
  (img.segments.findIdx? (·.contains addr)).map SegmentId.ofPosition

/-- The address `offset` bytes into a segment, if it is that long. -/
def resolve? (img : Image) (id : SegmentId) (offset : Word) : Option Word :=
  match img.segment? id with
  | some s => if offset < s.size then some (s.base + offset) else none
  | none => none

/-- Does the address lie in a segment with code? -/
def isExecutable (img : Image) (addr : Word) : Bool :=
  (img.segmentAt? addr).any (·.isExecutable)

/-- Does the address lie in a segment that cannot be written to? -/
def isReadOnly (img : Image) (addr : Word) : Bool :=
  (img.segmentAt? addr).any (·.isReadOnly)

/-- The initialised bytes from `addr` to the end of its segment's data. -/
def bytesFrom (img : Image) (addr : Word) : Except MemoryError (List UInt8) :=
  match img.segmentAt? addr with
  | some s => .ok (s.bytesFrom addr)
  | none => .error (.unmapped addr)

/-- `len` bytes at `addr`, all of one segment. -/
def read (img : Image) (addr : Word) (len : Nat) : Except MemoryError (List UInt8) :=
  match img.segmentAt? addr with
  | some s =>
    if s.limit < Word.addSat addr len then .error (.crossesSegment addr len)
    else .ok (s.readZeroFilled addr len)
  | none => .error (.unmapped addr)

/-- The number in the `bytes` bytes at `addr`, in the image's order. -/
def readUInt (img : Image) (addr : Word) (bytes : Nat) : Except MemoryError Word :=
  if isAccessSize bytes then (img.read addr bytes).map img.order.decode
  else .error (.unsupportedWidth bytes)

/-- The number at `addr` if the program cannot write there. -/
def readOnlyUInt? (img : Image) (addr : Word) (bytes : Nat) : Option Word :=
  if img.isReadOnly addr then (img.readUInt addr bytes).toOption else none

/-- A segment is taken exactly if it is apart from all present ones. -/
theorem add_eq_ok_iff {img img' : Image} {s : Segment} {id : SegmentId} :
    img.add s = .ok (id, img') ↔
      (∀ t ∈ img.segments, s.apart t = true) ∧ id = .ofPosition img.segments.length ∧
        img' = { img with segments := img.segments ++ [s] } := by
  unfold add
  by_cases h : ∀ t ∈ img.segments, s.apart t = true
  · rw [if_pos (List.all_eq_true.2 h)]
    simp only [Except.ok.injEq, Prod.mk.injEq]
    exact ⟨fun ⟨hid, himg⟩ => ⟨h, hid.symm, himg.symm⟩,
      fun ⟨_, hid, himg⟩ => ⟨hid.symm, himg.symm⟩⟩
  · rw [if_neg fun hall => h (List.all_eq_true.1 hall)]
    simp [h]

end Image

end FlowRecovery
