import FlowRecovery.Memory.Image

/-!
# `FlowRecovery.Value`: typed values

What a register can hold while code is being followed: a literal, an
address relative to a segment, the unknown content of a register at
function entry, the address the function will return to, a value that
some operation has clobbered, or the result of an earlier assignment.
Values are compared by structure; their order is the order of the
constructors, then of their fields.
-/

set_option autoImplicit false

namespace FlowRecovery

/-- A register, by its position in the register file. -/
abbrev Reg := Nat

/-- An assignment, by its number within one unit of discovery. Numbers have
no bound here, where a machine word would run out after `2 ^ 64` of them. -/
abbrev AssignId := Nat

/-- A block, by its number within one unit of discovery. Numbers have no
bound here. What is to hold of numbers of 32 bits says that they suffice. -/
abbrev BlockIndex := Nat

/-- A register is written `%n`. -/
def Reg.text (r : Reg) : String := s!"%{r}"

/-- An assignment is written `rn`. -/
def AssignId.text (id : AssignId) : String := s!"r{id}"

/-- A block is written `bn`. -/
def BlockIndex.text (i : BlockIndex) : String := s!"b{i}"

/-- The type of a value. -/
inductive Ty where
  | bool
  | bv (width : Nat)
deriving DecidableEq, Repr, Ord, Inhabited

namespace Ty

/-- The width of a bitvector type. -/
def width? : Ty → Option Nat
  | .bool => none
  | .bv w => some w

/-- Bitvectors have 1 to 64 bits. -/
def isValid : Ty → Bool
  | .bool => true
  | .bv w => decide (1 ≤ w) && decide (w ≤ 64)

/-- The type in print. -/
def text : Ty → String
  | .bool => "bool"
  | .bv w => s!"bv{w}"

/-- The bounds on the width, as a proposition. -/
@[simp] theorem isValid_bv (w : Nat) : (bv w).isValid = true ↔ 1 ≤ w ∧ w ≤ 64 := by
  simp [isValid]

/-- Only a bitvector has a width. -/
theorem width?_eq_some_iff {ty : Ty} {w : Nat} : ty.width? = some w ↔ ty = .bv w := by
  cases ty <;> simp [width?]

end Ty

/-- A typed value. -/
inductive Value where
  /-- A boolean literal. -/
  | bool (b : Bool)
  /-- A bitvector literal. -/
  | bv (width : Nat) (bits : Word)
  /-- An address relative to the start of a segment. -/
  | reloc (segment : SegmentId) (offset : Word) (width : Nat)
  /-- What a register held at function entry. -/
  | initial (reg : Reg) (ty : Ty)
  /-- The address the function returns to. -/
  | returnAddr (width : Nat)
  /-- A clobbered value; two of them need not be equal. -/
  | clobbered (ty : Ty)
  /-- The result of an assignment. -/
  | assign (id : AssignId) (ty : Ty)
deriving DecidableEq, Repr, Ord, Inhabited

namespace Value

/-- The bitvector literal of the low `width` bits of `w`. -/
def ofWord (width : Nat) (w : Word) : Value :=
  .bv width (w.keepLow width)

/-- The type of a value. -/
def ty : Value → Ty
  | .bool _ => .bool
  | .bv width _ | .reloc _ _ width | .returnAddr width => .bv width
  | .initial _ ty | .clobbered ty | .assign _ ty => ty

/-- The contents of a bitvector literal. -/
def word? : Value → Option Word
  | .bv _ w => some w
  | _ => none

/-- The contents of a boolean literal. -/
def bool? : Value → Option Bool
  | .bool b => some b
  | _ => none

/-- The assignment whose result this is. -/
def assignId? : Value → Option AssignId
  | .assign id _ => some id
  | _ => none

/-- Is it a literal? -/
def isLiteral : Value → Bool
  | .bool _ | .bv .. => true
  | _ => false

/-- Is it clobbered? -/
def isClobbered : Value → Bool
  | .clobbered _ => true
  | _ => false

/-- Is it the bitvector literal zero? -/
def isZero : Value → Bool
  | .bv _ w => w == 0
  | _ => false

/-- Is it the bitvector literal one? -/
def isOne : Value → Bool
  | .bv _ w => w == 1
  | _ => false

/-- Is it a bitvector literal with all its bits set? -/
def isAllOnes : Value → Bool
  | .bv width w => w == Word.mask width
  | _ => false

/-- The address that a literal or a segment-relative value denotes. -/
def address? (img : Image) : Value → Option Word
  | .bv _ w => some w
  | .reloc segment offset width =>
    (img.segment? segment).map fun s => Word.keepLow width (s.base + offset)
  | _ => none

/-- The address of a value, if it lies in executable memory. -/
def executableAddress? (img : Image) (v : Value) : Option Word :=
  (v.address? img).filter img.isExecutable

/-- The value in print. -/
def text : Value → String
  | .bool b => if b then "true" else "false"
  | .bv width w => s!"{w.hex}:bv{width}"
  | .reloc segment offset _ => s!"seg{segment}+{offset.hex}"
  | .initial reg _ => s!"init{Reg.text reg}"
  | .returnAddr _ => "return_addr"
  | .clobbered ty => s!"undef:{ty.text}"
  | .assign id _ => AssignId.text id

/-- A list of arguments, separated by commas. -/
def listText (vs : List Value) : String :=
  ", ".intercalate (vs.map text)

/-- A literal has the width that it was cut to. -/
@[simp] theorem ty_ofWord (width : Nat) (w : Word) : (ofWord width w).ty = .bv width := rfl

/-- Only a boolean literal has a known truth value. -/
theorem bool?_eq_some {v : Value} {b : Bool} : v.bool? = some b ↔ v = .bool b := by
  cases v <;> simp [bool?]

/-- Only the result of an assignment has its number. -/
theorem assignId?_eq_some {v : Value} {id : AssignId} :
    v.assignId? = some id ↔ ∃ ty, v = .assign id ty := by
  cases v <;> simp [assignId?]

end Value

end FlowRecovery
