import FlowRecovery.Block.Ledger
import FlowRecovery.Expr
import FlowRecovery.Operator.Fold

/-!
# `FlowRecovery.Builder`: building blocks one statement at a time

A `Builder` holds the block under construction, if one is open, and the
numbers and finished blocks of the unit it works for. The operations in
the namespace `Build` are what the description of an instruction may do:
read and write registers, evaluate expressions, access memory, emit
statements, close the block, split it in two.

Evaluation folds, and within a block it never emits the same computation
twice: results are remembered by right-hand side. Loads, impure
primitives and anything that reads a clobbered value are exempt.

An operation that fails keeps the effects it had before failing, so the
state is threaded below the error: `Build` is errors over state.
-/

set_option autoImplicit false

namespace FlowRecovery

/-- What outlives one block: how many assignment numbers are taken, and
the ledger of blocks. One unit of discovery shares one of these. -/
structure Discovery where
  issued : Nat := 0
  ledger : Ledger := {}
deriving DecidableEq, Repr

/-- A block under construction. -/
structure OpenBlock where
  index : BlockIndex
  addr : Word
  stmts : List Stmt := []
  regs : RegFile
  /-- Results that can be used again, by right-hand side. -/
  memo : List (Rhs × Value) := []
deriving DecidableEq, Repr

/-- The state of construction. `current` is empty once the block has
been closed. -/
structure Builder extends Discovery where
  current : Option OpenBlock
  /-- The address of the instruction at hand; blocks opened by a split
  start here. -/
  instrAddr : Word
deriving DecidableEq, Repr

/-- A point of construction to return to. Assignment numbers are not
part of it: they are never handed out twice. -/
structure Checkpoint where
  current : Option OpenBlock
  finished : Nat
  next : BlockIndex
  instrAddr : Word
deriving DecidableEq, Repr

namespace Builder

/-- Open a first block at `addr`. -/
def start (d : Discovery) (addr : Word) (regs : RegFile) : Builder :=
  let (index, ledger) := d.ledger.alloc
  { issued := d.issued, ledger, current := some { index, addr, regs }, instrAddr := addr }

/-- Is there a block to append to? -/
def isOpen (b : Builder) : Bool := b.current.isSome

/-- The statements of the open block. -/
def stmts (b : Builder) : List Stmt := (b.current.map OpenBlock.stmts).getD []

/-- The registers of the open block. -/
def regs? (b : Builder) : Option RegFile := b.current.map OpenBlock.regs

/-- What a later rollback needs to know of the builder. -/
def checkpoint (b : Builder) : Checkpoint :=
  { current := b.current
    finished := b.ledger.finished.length
    next := b.ledger.next
    instrAddr := b.instrAddr }

/-- Return to a checkpoint and drop the blocks finished since. -/
def rollback (b : Builder) (c : Checkpoint) : Builder :=
  { b with
    ledger := b.ledger.truncate c.finished c.next
    current := c.current
    instrAddr := c.instrAddr }

end Builder

/-- A construction step: it may fail, and leaves a state either way. -/
abbrev Build := ExceptT BuildError (StateM Builder)

namespace Build

/-- Stop with a broken rule. -/
def violate {α : Type} (v : Violation) : Build α :=
  throw (.violation v)

/-- Stop with the broken rule, or go on with the result. -/
def check {α : Type} : Except Violation α → Build α
  | .ok a => pure a
  | .error v => violate v

/-- Do `x` and go on whether or not it failed. -/
def attempt {α : Type} (x : Build α) : Build (Except BuildError α) := fun b =>
  let (result, b) := x b
  (.ok result, b)

/-- The open block. -/
def openBlock : Build OpenBlock := do
  match (← get).current with
  | some block => pure block
  | none => violate .alreadyTerminated

/-- Replace the open block. -/
def putBlock (block : OpenBlock) : Build Unit :=
  modify fun b => { b with current := some block }

/-! ### Registers -/

/-- Read a register of the open block. -/
def getRegister (r : Reg) : Build Value := do
  let block ← openBlock
  match block.regs.get? r with
  | some v => pure v
  | none => violate (.unknownRegister r)

/-- Write a register. The register that always reads as zero takes no
writes. -/
def setRegister (m : Machine) (r : Reg) (v : Value) : Build Unit := do
  let block ← openBlock
  if m.zero = some r then
    pure ()
  else
    let regs ← check (block.regs.set r v)
    putBlock { block with regs }

/-- Point the instruction pointer at a literal address. -/
def setIp (m : Machine) (addr : Word) : Build Unit :=
  setRegister m m.ip (m.addr addr)

/-! ### Statements and values -/

/-- Append a statement to the open block. -/
def emit (s : Stmt) : Build Unit := do
  let block ← openBlock
  putBlock { block with stmts := block.stmts ++ [s] }

/-- Name the result of `rhs`. With `memoize`, an earlier name for the
same right-hand side is used again, unless it reads a clobbered value:
two of those look alike and may differ. -/
def define (rhs : Rhs) (ty : Ty) (memoize : Bool) : Build Value := do
  let block ← openBlock
  let memoize := memoize && !rhs.operands.any Value.isClobbered
  match if memoize then block.memo.lookup rhs else none with
  | some v => pure v
  | none =>
    let id := (← get).issued
    let v := Value.assign id ty
    modify fun b => { b with issued := id + 1 }
    putBlock { block with
      stmts := block.stmts ++ [.assign id ty rhs]
      memo := if memoize then (rhs, v) :: block.memo else block.memo }
    pure v

/-- The value of a well-typed application: folded if it can be, else
named. Folding needs no open block. -/
def evaluateApp (app : App) : Build Value := do
  let ty ← check app.resultType
  match app.fold with
  | some v => pure v
  | none => define (.app app) ty true

/-- The value of an expression, bottom up and left to right. -/
def evaluate : Expr Value → Build Value
  | .leaf v => pure v
  | .unary op arg => do
    let arg ← evaluate arg
    evaluateApp (.unary op arg)
  | .binary op left right => do
    let left ← evaluate left
    let right ← evaluate right
    evaluateApp (.binary op left right)
  | .ext op arg width => do
    let arg ← evaluate arg
    evaluateApp (.ext op arg width)
  | .select cond onTrue onFalse => do
    let cond ← evaluate cond
    let onTrue ← evaluate onTrue
    let onFalse ← evaluate onFalse
    evaluateApp (.select cond onTrue onFalse)

/-- The result of a machine primitive. Only a pure one is used again. -/
def evaluatePrim (prim : Prim) : Build Value :=
  define (.prim prim) prim.ty prim.isPure

/-! ### Memory -/

/-- An address must have the machine's address type. -/
def checkAddress (m : Machine) (op : String) (addr : Value) : Build Unit :=
  if addr.ty = m.addrTy then pure () else violate (.illTyped op (.addressType addr.ty))

/-- The constant at an address that is known and cannot be written. -/
def constantAt? (img : Image) (addr : Value) (bytes : Nat) : Option Value :=
  (addr.address? img).bind fun a =>
    (img.readOnlyUInt? a bytes).map (Value.ofWord (bytes * 8))

/-- Load `bytes` bytes: a constant where memory is read-only, else a
load statement. -/
def load (m : Machine) (img : Image) (addr : Value) (bytes : Nat) : Build Value := do
  checkAddress m "read_mem" addr
  if isAccessSize bytes then
    match constantAt? img addr bytes with
    | some v => pure v
    | none => define (.load addr bytes) (.bv (bytes * 8)) false
  else
    violate (.illTyped "read_mem" (.accessSize bytes))

/-- Store a bitvector. -/
def store (m : Machine) (addr value : Value) : Build Unit := do
  checkAddress m "write_mem" addr
  if value.ty = .bool then violate (.illTyped "write_mem" .booleanStore)
  else emit (.store addr value)

/-! ### Blocks -/

/-- Take the next block number. -/
def allocIndex : Build BlockIndex :=
  modifyGet fun b =>
    let (index, ledger) := b.ledger.alloc
    (index, { b with ledger })

/-- Close the open block with an exit made from its final registers. The
block is closed even if the ledger refuses it. -/
def close (exit : RegFile → Exit) : Build BlockIndex := do
  let block ← openBlock
  modify fun b => { b with current := none }
  let finished : Block :=
    { index := block.index, addr := block.addr, stmts := block.stmts, exit := exit block.regs }
  let ledger ← check ((← get).ledger.push finished)
  modify fun b => { b with ledger }
  pure block.index

/-- A branch condition is a boolean. -/
def checkCondition (cond : Value) : Build Unit :=
  if cond.ty = .bool then pure () else violate (.illTyped "branch" (.conditionType cond.ty))

/-- Close the open block with a branch to two new block numbers, and
return them with the registers that both sides start from. -/
def split (cond : Value) : Build (BlockIndex × BlockIndex × RegFile) := do
  let block ← openBlock
  let onTrue ← allocIndex
  let onFalse ← allocIndex
  let _ ← close fun _ => .branch cond onTrue onFalse
  pure (onTrue, onFalse, block.regs)

/-- Open the block of an earlier split. -/
def enter (index : BlockIndex) (regs : RegFile) : Build Unit :=
  modify fun b => { b with current := some { index, addr := b.instrAddr, regs } }

/-- Close the block if it is still open, going on wherever the
instruction pointer leads. -/
def closeIfOpen : Build Unit := do
  if (← get).isOpen then
    let _ ← close .fetch
  pure ()

/-- Return to a checkpoint. The blocks that were finished there must not
have been dropped in the meantime. -/
def rollback (c : Checkpoint) : Build Unit := do
  let left := (← get).ledger.finished.length
  if c.finished ≤ left then modify (·.rollback c)
  else violate (.lostBlocks c.finished left)

end Build

end FlowRecovery
