import FlowRecovery.Recipe.Run
import FlowRecovery.Tally

/-!
# `FlowRecovery.Disassembly`: from bytes to blocks

A run decodes instructions from one address on, each carried out on the
open block by its recipe, until control leaves straight-line code: the
block has been closed, the instruction pointer is not at the next
instruction, or there are enough instructions. A decoding failure undoes
the instruction it happens in and closes the block there. Broken rules
of construction end the run with an error.

An instruction set gives each instruction its recipe by the instruction,
its address and its size. What a recipe cannot say, no instruction can do
(`FlowRecovery.Recipe`).
-/

set_option autoImplicit false

namespace FlowRecovery

/-- How the bytes of a machine's instructions are read and what the
instructions do. -/
structure InstructionSet where
  Instr : Type
  /-- The instruction at the start of the bytes, and its size. -/
  decode : List UInt8 → Word → Option (Instr × Nat)
  /-- What the instruction does at this address and of this size. It
  leaves the instruction pointer at what is to be executed next. -/
  recipe : Instr → Word → Nat → Recipe

/-- The blocks of one run. -/
structure Disassembly where
  blocks : List Block
  /-- Known addresses in executable memory where the blocks go on. -/
  next : List Word
  /-- The decoding failure that ended the run. -/
  failure : Option BuildError
deriving DecidableEq, Repr

namespace Disassembly

/-- How many instructions a block has at most, where nothing else is
asked for. -/
def defaultLimit : Nat := 256

/-- What a run works with. -/
structure Source where
  machine : Machine
  image : Image
  isa : InstructionSet

/-- The instruction at `pc` and its size. -/
def fetch (src : Source) (pc : Word) : Except BuildError (src.isa.Instr × Nat) :=
  if !src.image.isExecutable pc then .error (.decode pc "address is not executable")
  else
    match src.image.bytesFrom pc with
    | .error e => .error (.decode pc e.message)
    | .ok bytes =>
      match src.isa.decode bytes pc with
      | some found => .ok found
      | none => .error (.decode pc "invalid instruction")

/-- Decode one instruction, mark its start and carry it out. The result
is its size. -/
def step (src : Source) (pc : Word) : Build Nat := do
  let (instr, size) ← ExceptT.mk (pure (fetch src pc))
  Build.emit (.instruction pc size)
  (src.isa.recipe instr pc size).run
    { machine := src.machine, image := src.image, addr := pc, size }
  pure size

/-- Undo what the instruction at `pc` did and close the block there. -/
def abandon (c : Checkpoint) (pc : Word) (reason : String) : Build Unit := do
  modify (·.rollback c)
  let _ ← Build.close (.failed · pc reason)
  pure ()

/-- What comes after one instruction. -/
inductive After where
  /-- The block has been closed; a decoding failure is told. -/
  | closed (failure : Option BuildError)
  /-- Control simply goes on at `next`. -/
  | fallsThrough (next : Word)
deriving DecidableEq, Repr

/-- After the instruction at `pc` has been carried out: close the block
unless that has been done or control goes on at the next instruction. -/
def conclude (src : Source) (pc : Word) (size : Nat) : Build After := do
  if (← get).isOpen then
    let next := pc + BitVec.ofNat 64 size
    let ip ← Build.getRegister src.machine.ip
    if ip = src.machine.addr next then
      pure (.fallsThrough next)
    else
      let _ ← Build.close .fetch
      pure (.closed none)
  else
    pure (.closed none)

/-- Decode and carry out the instruction at `pc`. -/
def decodeOne (src : Source) (pc : Word) : Build After := do
  modify fun b => { b with instrAddr := pc }
  let before := (← get).checkpoint
  match ← Build.attempt (step src pc) with
  | .ok size => conclude src pc size
  | .error (.decode addr reason) =>
    abandon before pc reason
    pure (.closed (some (.decode addr reason)))
  | .error (.violation v) => Build.violate v

/-- Decode from `pc` on, this instruction and at most `more` others. The
result is the decoding failure that ended it, if one did. -/
def decodeFrom (src : Source) : Nat → Word → Build (Option BuildError)
  | 0, pc => do
    match ← decodeOne src pc with
    | .closed failure => pure failure
    | .fallsThrough _ =>
      let _ ← Build.close .fetch
      pure none
  | more + 1, pc => do
    match ← decodeOne src pc with
    | .closed failure => pure failure
    | .fallsThrough next => decodeFrom src more next

/-- Known addresses in executable memory where fetching blocks go on. -/
def nextAddresses (src : Source) (blocks : List Block) : List Word :=
  blocks.filterMap fun b =>
    match b.exit with
    | .fetch regs => (regs.get? src.machine.ip).bind (Value.executableAddress? src.image)
    | _ => none

/-- What several runs share: numbers and blocks, and the counts. -/
structure Session where
  discovery : Discovery := {}
  tally : Tally := {}
deriving DecidableEq, Repr

/-- One run from `addr`, with at most `limit` instructions in a block,
but always one. -/
def run (src : Source) (limit : Nat) (addr : Word) (regs : RegFile) :
    ExceptT BuildError (StateM Session) Disassembly := fun s =>
  match decodeFrom src (limit - 1) addr (Builder.start s.discovery addr regs) with
  | (.error e, b) => (.error e, { s with discovery := b.toDiscovery })
  | (.ok failure, b) =>
    let (blocks, ledger) := b.ledger.take
    let tally := if failure.isSome then s.tally.countDecodeFailure else s.tally
    (.ok { blocks, next := nextAddresses src blocks, failure },
      { discovery := { b.toDiscovery with ledger }
        tally := tally.countDisassembled blocks.length })

end Disassembly

end FlowRecovery
