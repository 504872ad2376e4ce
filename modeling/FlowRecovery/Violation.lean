import FlowRecovery.Value

/-!
# `FlowRecovery.Violation`: what can go wrong while building blocks

A `TypeFault` says how the operands of one operation fail to fit. A
`Violation` is a broken rule of construction: it points at a mistake in
the description of an instruction set, never at a bad program. A
`BuildError` is either of those or a decoding failure, which does come
from the program under study and ends only the block at hand.
-/

set_option autoImplicit false

namespace FlowRecovery

/-- How the operands of an operation fail to fit it. -/
inductive TypeFault where
  /-- An operand's type is not a type of 1 to 64 bits. -/
  | operandOutOfRange (ty : Ty)
  /-- The one operand has a type the operator does not take. -/
  | operandType (ty : Ty)
  /-- The two operands must have one type. -/
  | operandsDiffer (left right : Ty)
  /-- The operands agree on a type the operator does not take. -/
  | operandsType (ty : Ty)
  | targetOutOfRange (width : Nat)
  /-- A truncation that would grow, or an extension that would shrink. -/
  | cannotChange (width target : Nat)
  | conditionType (ty : Ty)
  | armsDiffer (onTrue onFalse : Ty)
  | addressType (ty : Ty)
  | accessSize (bytes : Nat)
  | booleanStore
deriving DecidableEq, Repr

/-- The text of the fault. -/
def TypeFault.text : TypeFault → String
  | .operandOutOfRange ty => s!"operand type {ty.text} out of range"
  | .operandType ty => s!"operand has type {ty.text}"
  | .operandsDiffer left right => s!"operand types differ: {left.text} vs {right.text}"
  | .operandsType ty => s!"operands have type {ty.text}"
  | .targetOutOfRange width => s!"target width {width} out of range"
  | .cannotChange width target => s!"cannot change bv{width} to bv{target}"
  | .conditionType ty => s!"condition has type {ty.text}"
  | .armsDiffer onTrue onFalse => s!"arm types differ: {onTrue.text} vs {onFalse.text}"
  | .addressType ty => s!"address has type {ty.text}"
  | .accessSize bytes => s!"unsupported access size {bytes}"
  | .booleanStore => "cannot store a boolean"

/-- A broken rule of construction. -/
inductive Violation where
  /-- No block is open. -/
  | alreadyTerminated
  | unknownRegister (reg : Reg)
  | registerType (reg : Reg) (expected actual : Ty)
  | illTyped (op : String) (fault : TypeFault)
  | duplicateBlock (index : BlockIndex)
  | unallocatedBlock (index : BlockIndex)
  | outOfOrderBlock (index after : BlockIndex)
  /-- The blocks finished at a checkpoint are no longer all there. -/
  | lostBlocks (kept left : Nat)
deriving DecidableEq, Repr

/-- The text of the violation. -/
def Violation.message : Violation → String
  | .alreadyTerminated => "block already terminated"
  | .unknownRegister reg => s!"register {Reg.text reg} out of range"
  | .registerType reg expected actual =>
    s!"register {Reg.text reg} has type {expected.text}, got {actual.text}"
  | .illTyped op fault => s!"ill-typed {op}: {fault.text}"
  | .duplicateBlock index => s!"block {BlockIndex.text index} emitted twice"
  | .unallocatedBlock index => s!"block {BlockIndex.text index} was never allocated"
  | .outOfOrderBlock index after =>
    s!"block {BlockIndex.text index} finished after block {BlockIndex.text after}"
  | .lostBlocks kept left => s!"checkpoint keeps {kept} blocks, {left} are left"

/-- Why building stopped. -/
inductive BuildError where
  /-- The instruction at `addr` could not be decoded or described. -/
  | decode (addr : Word) (reason : String)
  | violation (v : Violation)
deriving DecidableEq, Repr

/-- The text of the error. -/
def BuildError.message : BuildError → String
  | .decode addr reason => s!"decode failure at {addr.hex}: {reason}"
  | .violation v => s!"invariant violation: {v.message}"

end FlowRecovery
