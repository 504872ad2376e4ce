import FlowRecovery.Block
import FlowRecovery.Definitions.ReturnDomain

/-!
# `FlowRecovery.Flow`: how control leaves a block, decided

A `Flow` is a block's exit with its meaning: a call, a return, a jump to
a known place and so on. A `FlowBlock` is a block with its flow, the
addresses in the same function where control can go on, and the entries
of functions it calls.
-/

set_option autoImplicit false

namespace FlowRecovery

/-- The kinds of flow that are counted apart. -/
inductive FlowKind where
  | fallthrough
  | branch
  | call
  | ret
  | conditionalReturn
  | tailCall
  | indirectJump
  | arch
  | failed
  | unclassified
deriving DecidableEq, Repr

/-- The label of a kind in reports. -/
def FlowKind.label : FlowKind → String
  | .fallthrough => "fallthrough"
  | .branch => "branch"
  | .call => "call"
  | .ret => "return"
  | .conditionalReturn => "conditional_return"
  | .tailCall => "tail_call"
  | .indirectJump => "indirect_jump"
  | .arch => "arch"
  | .failed => "translate_error"
  | .unclassified => "classification_failed"

/-- How control leaves a block, with the registers at that point. -/
inductive Flow where
  /-- A call that comes back to `returnAddr`. -/
  | call (regs : RegFile) (returnAddr : Word)
  /-- A jump to a function's entry that reuses the caller's frame. -/
  | tailCall (regs : RegFile)
  | jump (regs : RegFile) (target : Word)
  | branch (regs : RegFile) (cond : Value) (onTrue onFalse : Word)
  | ret (regs : RegFile)
  /-- A return if `cond` is `returnsWhen`, else on to `next`. -/
  | conditionalReturn (regs : RegFile) (cond : Value) (returnsWhen : Bool) (next : Word)
  /-- A jump to an address that is not known. -/
  | indirectJump (regs : RegFile)
  /-- A branch between blocks of a single instruction. -/
  | innerBranch (cond : Value) (onTrue onFalse : BlockIndex)
  /-- Decoding failed at `addr`. -/
  | failed (regs : RegFile) (addr : Word) (reason : String)
  | arch (regs : RegFile) (name : String) (args : List Value)
  /-- No rule could explain the exit. -/
  | unclassified (regs : RegFile) (reason : String)
deriving DecidableEq, Repr

namespace Flow

/-- A plain jump counts as falling through. -/
def kind : Flow → FlowKind
  | .call .. => .call
  | .tailCall _ => .tailCall
  | .jump .. => .fallthrough
  | .branch .. | .innerBranch .. => .branch
  | .ret _ => .ret
  | .conditionalReturn .. => .conditionalReturn
  | .indirectJump _ => .indirectJump
  | .failed .. => .failed
  | .arch .. => .arch
  | .unclassified .. => .unclassified

/-- The registers at the end; a branch inside the unit has none. -/
def regs? : Flow → Option RegFile
  | .call regs _ | .tailCall regs | .jump regs _ | .branch regs _ _ _ | .ret regs
  | .conditionalReturn regs _ _ _ | .indirectJump regs | .failed regs _ _ | .arch regs _ _
  | .unclassified regs _ => some regs
  | .innerBranch .. => none

/-- The values that the flow itself reads, beside the registers. -/
def operands : Flow → List Value
  | .branch _ cond _ _ | .conditionalReturn _ cond _ _ | .innerBranch cond _ _ => [cond]
  | .arch _ _ args => args
  | _ => []

/-- The values that a block must keep computing. -/
def roots (f : Flow) : List Value :=
  (f.regs?.map RegFile.values).getD [] ++ f.operands

end Flow

/-- A block after classification. -/
structure FlowBlock where
  index : BlockIndex
  addr : Word
  stmts : List Stmt
  flow : Flow
  /-- Where control can go on within the function. -/
  successors : List Word := []
  /-- Entries of functions that the block calls. -/
  newFunctions : List Word := []
deriving DecidableEq, Repr

end FlowRecovery
