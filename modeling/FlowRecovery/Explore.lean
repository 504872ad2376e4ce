import FlowRecovery.Disassembly
import FlowRecovery.Target

/-!
# `FlowRecovery.Explore`: discovering a function

Exploration starts at a function's entry and follows control: it
disassembles from an address, classifies the blocks, and queues the
addresses where they go on, each once. Every function is a unit of its
own: it has its own numbers and its own record of assignments and
stores.

A run yields at least one block, so the limit on blocks also bounds the
number of runs; `follow` counts them down.
-/

set_option autoImplicit false

namespace FlowRecovery

/-- Why a function could not be explored. -/
inductive ExploreError where
  | build (e : BuildError)
  | classify (e : ClassifyError)
  | unmappedEntry (entry : Word)
deriving DecidableEq, Repr

/-- The text of the error. -/
def ExploreError.message : ExploreError → String
  | .build e => s!"IR error: {e.message}"
  | .classify e => s!"classification error: {e.message}"
  | .unmappedEntry entry => s!"entry point {entry.hex} is not in executable memory"

/-- What was discovered from one entry. -/
structure Function where
  entry : Word
  /-- The blocks in the order they were discovered. -/
  blocks : List FlowBlock
  /-- Entries of other functions that are called, in increasing order. -/
  newFunctions : List Word
  /-- Decoding failures; each ended one path. -/
  failures : List BuildError
  /-- Was the limit on blocks reached? -/
  truncated : Bool
deriving DecidableEq, Repr

/-- The first block that starts at `addr`. -/
def Function.blockAt? (f : Function) (addr : Word) : Option FlowBlock :=
  f.blocks.find? (·.addr == addr)

namespace Explore

/-- Limits on what is explored. -/
structure Limits where
  /-- Blocks after which a function is left unfinished. -/
  maxBlocks : Nat := 4096
  /-- Instructions after which a block is cut. -/
  maxInstructions : Nat := Disassembly.defaultLimit
deriving DecidableEq, Repr

/-- What an exploration works with. -/
structure Task where
  target : Target
  isa : InstructionSet
  image : Image
  limits : Limits := {}
  /-- Entries of functions known beforehand. -/
  known : List Word

/-- What an exploration has found and still has to do. -/
structure Progress where
  session : Disassembly.Session := {}
  defs : Definitions := {}
  visited : List Word := []
  /-- Addresses to go on at, with the registers there. -/
  worklist : List (Word × RegFile)
  blocks : List FlowBlock := []
  newFunctions : List Word := []
  failures : List BuildError := []
  truncated : Bool := false

/-- A part of an exploration: it may fail, and leaves a state either
way. -/
abbrev ExploreM := ExceptT ExploreError (StateM Progress)

/-- What blocks are disassembled from. -/
def Task.source (task : Task) : Disassembly.Source where
  machine := task.target.machine
  image := task.image
  isa := task.isa

/-- The setting in which blocks are classified. -/
def Task.setting (task : Task) (defs : Definitions) : Setting where
  machine := task.target.machine
  image := task.image
  defs := defs
  recognizers := task.target.recognizers
  abs := (ReturnDomain.ofSeeds defs (task.target.seeds.getD []) task.target.machine.addrWidth
    task.target.primEval).transfer
  feasible := Feasibility.ofCondition
  known := task.known

/-- Drop the assignments that a classified block does not need. The
blocks of an inner branch read each other's values, so the block that
splits keeps all of its own. -/
def pruneBlock (effects : Effects) (b : FlowBlock) : FlowBlock :=
  match b.flow with
  | .innerBranch .. => b
  | flow => { b with stmts := prune effects flow.roots b.stmts }

/-- The target's last change to a block, and pruning. -/
def finish (task : Task) (b : FlowBlock) : FlowBlock :=
  pruneBlock task.target.effects ((task.target.amend.getD id) b)

/-- The registers at a successor of `b`: what a call leaves, or the
block's own with the instruction pointer moved. -/
def edgeState? (task : Task) (defs : Definitions) (b : FlowBlock) (succ : Word) : Option RegFile :=
  match b.flow.regs? with
  | none => none
  | some regs =>
    match b.flow with
    | .call .. => some (task.target.machine.postCallRegs defs regs succ)
    | _ => (regs.set task.target.machine.ip (task.target.machine.addr succ)).toOption

/-- The successors of `b` that have not been visited, with the registers
there. -/
def newWork (task : Task) (defs : Definitions) (visited : List Word) (b : FlowBlock) :
    List (Word × RegFile) :=
  b.successors.filterMap fun succ =>
    if visited.contains succ then none
    else (edgeState? task defs b succ).map fun regs => (succ, regs)

/-- Classify one block of a run and queue where it goes on. -/
def visitBlock (task : Task) (b : Block) : ExploreM Unit := fun p =>
  match task.target.chain.classifyBlock (task.setting p.defs) b p.session.tally with
  | (.error e, tally) => (.error (.classify e), { p with session.tally := tally })
  | (.ok found, tally) =>
    let found := finish task found
    (.ok (), { p with
      session.tally := tally
      worklist := p.worklist ++ newWork task p.defs p.visited found
      blocks := p.blocks ++ [found]
      newFunctions := p.newFunctions ++ found.newFunctions })

/-- Disassemble from `addr` and classify what comes out. All blocks of
the run are recorded first: later ones may read what earlier ones
assign, and the other way round. -/
def visit (task : Task) (addr : Word) (regs : RegFile) : ExploreM Unit := do
  let out ← show ExploreM Disassembly from fun p =>
    match Disassembly.run task.source task.limits.maxInstructions addr regs p.session with
    | (.error e, session) => (.error (.build e), { p with session })
    | (.ok out, session) => (.ok out, { p with session })
  modify fun p => { p with
    failures := p.failures ++ out.failure.toList
    defs := out.blocks.foldl (fun defs b => defs.record b.stmts) p.defs }
  out.blocks.forM (visitBlock task)

/-- The first address in the queue that has not been visited, and the
queue after it. -/
def nextUnvisited? (visited : List Word) :
    List (Word × RegFile) → Option ((Word × RegFile) × List (Word × RegFile))
  | [] => none
  | (addr, regs) :: rest =>
    if visited.contains addr then nextUnvisited? visited rest else some ((addr, regs), rest)

/-- Nothing is left to do exactly if every queued address has been
visited. -/
theorem nextUnvisited?_eq_none_iff {visited : List Word} {queue : List (Word × RegFile)} :
    nextUnvisited? visited queue = none ↔ ∀ work ∈ queue, work.1 ∈ visited := by
  induction queue with
  | nil => simp [nextUnvisited?]
  | cons work rest ih =>
    by_cases h : work.1 ∈ visited
    · simp [nextUnvisited?, h, ih]
    · simp [nextUnvisited?, h]

/-- Leave the function unfinished. -/
def truncate : ExploreM Unit :=
  modify fun p => { p with truncated := true }

/-- Work off the queue with at most `runs` runs. -/
def follow (task : Task) : Nat → ExploreM Unit
  | 0 => do
    let p ← get
    if (nextUnvisited? p.visited p.worklist).isSome then truncate
  | runs + 1 => do
    let p ← get
    match nextUnvisited? p.visited p.worklist with
    | none => pure ()
    | some ((addr, regs), rest) =>
      if task.limits.maxBlocks ≤ p.blocks.length then truncate
      else
        set { p with visited := addr :: p.visited, worklist := rest }
        visit task addr regs
        follow task runs

/-- Addresses without repetition, in increasing order. -/
def sortedAddresses (addrs : List Word) : List Word :=
  addrs.eraseDups.mergeSort (fun a b => decide (a ≤ b))

/-- Sorting loses no address and adds none. -/
@[simp] theorem mem_sortedAddresses {addrs : List Word} {a : Word} :
    a ∈ sortedAddresses addrs ↔ a ∈ addrs := by
  simp [sortedAddresses]

/-- The addresses increase. -/
theorem sortedAddresses_pairwise (addrs : List Word) :
    (sortedAddresses addrs).Pairwise (· ≤ ·) := by
  have h := @List.pairwise_mergeSort _ (fun a b : Word => decide (a ≤ b))
    (fun a b c hab hbc => by
      simp only [decide_eq_true_eq, BitVec.le_def] at hab hbc ⊢
      exact Nat.le_trans hab hbc)
    (fun a b => by
      simp only [Bool.or_eq_true, decide_eq_true_eq, BitVec.le_def]
      exact Nat.le_total a.toNat b.toNat)
    addrs.eraseDups
  exact h.imp fun hab => by simpa using hab

/-- Explore the function at `entry`, counting as it goes. -/
def function (task : Task) (entry : Word) : Except ExploreError Function × Tally :=
  if !task.image.isExecutable entry then (.error (.unmappedEntry entry), {})
  else
    let start : Progress := { worklist := [(entry, task.target.entryState entry)] }
    match follow task task.limits.maxBlocks start with
    | (.error e, p) => (.error e, p.session.tally)
    | (.ok (), p) =>
      (.ok
        { entry
          blocks := p.blocks
          newFunctions := sortedAddresses (p.newFunctions.filter (· ≠ entry))
          failures := p.failures
          truncated := p.truncated },
        p.session.tally.countFunction p.blocks.length)

/-- Explore several functions, each known to the others. The answers are
in the order of the entries. -/
def functions (target : Target) (isa : InstructionSet) (image : Image) (limits : Limits)
    (entries : List Word) : List (Except ExploreError Function × Tally) :=
  entries.map (function { target, isa, image, limits, known := entries })

end Explore

end FlowRecovery
