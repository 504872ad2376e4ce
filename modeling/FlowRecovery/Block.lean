import FlowRecovery.Machine.RegFile
import FlowRecovery.Stmt

/-!
# `FlowRecovery.Block`: finished blocks

A block is a list of statements and an exit. The exit is raw: it says
what the registers hold when control leaves, not yet whether leaving is
a call, a return or a jump.
-/

set_option autoImplicit false

namespace FlowRecovery

/-- How control leaves a block. -/
inductive Exit where
  /-- Go on at whatever the instruction pointer holds. -/
  | fetch (regs : RegFile)
  /-- Go on in one of two blocks of the same unit. -/
  | branch (cond : Value) (onTrue onFalse : BlockIndex)
  /-- The instruction at `addr` could not be decoded; `regs` is the
  state before it. -/
  | failed (regs : RegFile) (addr : Word) (reason : String)
  /-- An exit of the machine's own, such as a trap. -/
  | arch (regs : RegFile) (name : String) (args : List Value)
deriving DecidableEq, Repr

namespace Exit

/-- The registers at the exit; a branch inside the unit has none. -/
def regs? : Exit → Option RegFile
  | .fetch regs | .failed regs _ _ | .arch regs _ _ => some regs
  | .branch .. => none

/-- The name of the kind of exit. -/
def kindName : Exit → String
  | .fetch _ => "fetch_and_execute"
  | .branch .. => "branch"
  | .failed .. => "translate_error"
  | .arch .. => "arch"

/-- The exit in print. -/
def text : Exit → String
  | .fetch _ => "fetch_and_execute"
  | .branch cond onTrue onFalse =>
    s!"branch {cond.text} ? {BlockIndex.text onTrue} : {BlockIndex.text onFalse}"
  | .failed _ addr reason => s!"translate_error {addr.hex}: {reason}"
  | .arch _ name _ => s!"arch {name}"

end Exit

/-- A finished block; `addr` is where its first instruction stands. -/
structure Block where
  index : BlockIndex
  addr : Word
  stmts : List Stmt
  exit : Exit
deriving DecidableEq, Repr

/-- How many instructions contributed to the block. -/
def Block.instructionCount (b : Block) : Nat :=
  b.stmts.countP Stmt.isInstruction

end FlowRecovery
