import FlowRecovery.Recipe

/-!
# `FlowRecovery.Recipe.Run`: carrying out a recipe

A branch on a literal goes on in the open block with the arm taken. A
branch on an unknown condition closes the block and queues both arms.
The outermost branch then works the queue off, first in first out, each
arm on a block of its own that starts from the registers at the split;
arms that branch again queue behind the others. So blocks finish in the
order of their numbers.

Arms see the temporaries bound before their branch, and bind for
themselves only. Named checkpoints belong to the run as a whole.
Everything that is done is recorded in a trace.
-/

set_option autoImplicit false

namespace FlowRecovery.Recipe

/-- Where a recipe is carried out: the machine, its memory, and the
address and size of the instruction. Decoding failures name the
address. -/
structure Site where
  machine : Machine
  image : Image
  addr : Word
  size : Nat

/-- The address of the next instruction. -/
def Site.next (site : Site) : Word :=
  site.addr + BitVec.ofNat 64 site.size

/-- Values by name, the newest first. -/
abbrev Temps := List (String × Value)

/-- What a step that succeeds returns. -/
inductive Outcome where
  | nothing
  | value (v : Value)
  | block (index : BlockIndex)
deriving DecidableEq, Repr

/-- A step that has finished, `none` standing for a branch, with its
result and the state after it. -/
structure Event where
  step : Option Step
  result : Except BuildError Outcome
  after : Builder

/-- A branch arm that waits for its turn. -/
structure Arm where
  index : BlockIndex
  regs : RegFile
  temps : Temps
  body : Recipe
deriving DecidableEq, Repr

/-- The state of a run. -/
structure Progress where
  builder : Builder
  /-- Arms still to do, in order. -/
  pending : List Arm := []
  saved : List (String × Checkpoint) := []
  /-- What has finished, the newest first. -/
  trace : List Event := []

/-- A part of a run: it may fail, and leaves a state either way. -/
abbrev RunM := ExceptT BuildError (StateM Progress)

/-- A construction step as part of a run. -/
def build {α : Type} (x : Build α) : RunM α := fun p =>
  let (result, builder) := x p.builder
  (result, { p with builder })

/-- Fail because the instruction makes no sense. -/
def failDecoding {α : Type} (site : Site) (reason : String) : RunM α :=
  throw (.decode site.addr reason)

/-- Do `x` and record how it went. -/
def recorded {α : Type} (step : Option Step) (outcome : α → Outcome) (x : RunM α) : RunM α :=
  fun p =>
    let (result, p) := x p
    (result, { p with trace := ⟨step, result.map outcome, p.builder⟩ :: p.trace })

/-- The value that a leaf stands for. -/
def Leaf.resolve (site : Site) (temps : Temps) : Leaf → RunM Value
  | .value v => pure v
  | .reg r => build (Build.getRegister r)
  | .temp name =>
    match temps.lookup name with
    | some v => pure v
    | none => failDecoding site s!"unknown tmp {name}"
  | .undecodable reason => failDecoding site reason

/-- Resolve all leaves, then evaluate. -/
def evalTerm (site : Site) (temps : Temps) (e : Term) : RunM Value := do
  let e ← e.resolve (Leaf.resolve site temps)
  build (Build.evaluate e)

/-- Evaluate one term after the other. -/
def evalTerms (site : Site) (temps : Temps) : List Term → RunM (List Value)
  | [] => pure []
  | e :: rest => do
    let v ← evalTerm site temps e
    let vs ← evalTerms site temps rest
    pure (v :: vs)

/-- Close the open block. -/
def Closing.run (site : Site) (temps : Temps) : Closing → RunM BlockIndex
  | .fetch => build (Build.close .fetch)
  | .branch cond onTrue onFalse => do
    let cond ← evalTerm site temps cond
    build (Build.close fun _ => .branch cond onTrue onFalse)
  | .failed addr reason => build (Build.close (.failed · addr reason))
  | .arch name args => do
    let args ← evalTerms site temps args
    build (Build.close (.arch · name args))

/-- Do one step. The result is the temporaries for what follows and what
the step returns. -/
def Step.run (site : Site) (temps : Temps) : Step → RunM (Temps × Outcome)
  | .bind name e => do
    let v ← evalTerm site temps e
    pure ((name, v) :: temps, .value v)
  | .load name addr bytes => do
    let addr ← evalTerm site temps addr
    let v ← build (Build.load site.machine site.image addr bytes)
    pure ((name, v) :: temps, .value v)
  | .prim name primitive args ty isPure => do
    let args ← evalTerms site temps args
    let v ← build (Build.evaluatePrim { name := primitive, args, ty, isPure })
    pure ((name, v) :: temps, .value v)
  | .set r e => do
    let v ← evalTerm site temps e
    build (Build.setRegister site.machine r v)
    pure (temps, .nothing)
  | .setIp addr => do
    build (Build.setIp site.machine addr)
    pure (temps, .nothing)
  | .advance => do
    build (Build.setIp site.machine site.next)
    pure (temps, .nothing)
  | .store addr value => do
    let addr ← evalTerm site temps addr
    let value ← evalTerm site temps value
    build (Build.store site.machine addr value)
    pure (temps, .nothing)
  | .emit s => do
    build (Build.emit s)
    pure (temps, .nothing)
  | .arch name args => do
    let args ← evalTerms site temps args
    build (Build.emit (.arch name args))
    pure (temps, .nothing)
  | .close c => do
    let index ← c.run site temps
    pure (temps, .block index)
  | .fail reason => failDecoding site reason
  | .moveTo addr => do
    build (modify fun b => { b with instrAddr := addr })
    pure (temps, .nothing)
  | .save name => do
    modify fun p => { p with saved := (name, p.builder.checkpoint) :: p.saved }
    pure (temps, .nothing)
  | .restore name => do
    match (← get).saved.lookup name with
    | some c =>
      build (Build.rollback c)
      pure (temps, .nothing)
    | none => failDecoding site s!"unknown checkpoint {name}"
  | .look => pure (temps, .nothing)

/-- Split the open block on `cond` and queue both arms. -/
def queueArms (cond : Value) (onTrue onFalse : Recipe) (temps : Temps) : RunM Unit := do
  let (trueIndex, falseIndex, regs) ← build (Build.split cond)
  let arms : List Arm :=
    [{ index := trueIndex, regs, temps, body := onTrue },
     { index := falseIndex, regs, temps, body := onFalse }]
  modify fun p => { p with pending := p.pending ++ arms }

/-- Carry out a recipe, stopping at the first failure. `settle` is what
happens once a split has queued its arms: nothing inside an arm, whose
queue is being worked off already. -/
def exec (site : Site) (settle : RunM Unit) : Recipe → Temps → RunM Unit
  | .done, _ => pure ()
  | .step s rest, temps => do
    let (temps, _) ← recorded (some s) Prod.snd (s.run site temps)
    exec site settle rest temps
  | .branch cond onTrue onFalse rest, temps => do
    recorded none (fun _ => .nothing) do
      let cond ← evalTerm site temps cond
      build (Build.checkCondition cond)
      match cond with
      | .bool true => exec site settle onTrue temps
      | .bool false => exec site settle onFalse temps
      | _ =>
        queueArms cond onTrue onFalse temps
        settle
    exec site settle rest temps

/-- Do one arm on its own block. -/
def Arm.run (site : Site) (arm : Arm) : RunM Unit := do
  build (Build.enter arm.index arm.regs)
  exec site (pure ()) arm.body arm.temps
  build Build.closeIfOpen

/-- Do at most `limit` of the queued arms, the first one first. -/
def drainUpTo (site : Site) : Nat → RunM Unit
  | 0 => pure ()
  | limit + 1 => do
    match (← get).pending with
    | [] => pure ()
    | arm :: rest =>
      modify fun p => { p with pending := rest }
      arm.run site
      drainUpTo site limit

/-- The sizes of the queued recipes, added up. -/
def load : List Arm → Nat
  | [] => 0
  | arm :: rest => arm.body.size + load rest

/-- Work off the queue. The sizes of the queued recipes bound the number
of arms there can be. A failure ends the work and clears the queue. -/
def drain (site : Site) : RunM Unit := fun p =>
  let (result, p) := drainUpTo site (load p.pending) p
  (result, { p with pending := [] })

/-- Carry out a recipe from a given state. -/
def start (site : Site) (r : Recipe) (b : Builder) : Except BuildError Unit × Progress :=
  exec site (drain site) r [] { builder := b }

/-- The construction step that a recipe describes. -/
def run (site : Site) (r : Recipe) : Build Unit := fun b =>
  let (result, p) := r.start site b
  (result, p.builder)

/-- Carry out the steps of a recipe one by one, going on after each
failure. Arms still stop at their first one. -/
def execEach (site : Site) : Recipe → Temps → StateM Progress Unit
  | .done, _ => pure ()
  | .step s rest, temps => do
    match ← (recorded (some s) Prod.snd (s.run site temps)).run with
    | .ok (temps, _) => execEach site rest temps
    | .error _ => execEach site rest temps
  | .branch cond onTrue onFalse rest, temps => do
    let _ ← (exec site (drain site) (.branch cond onTrue onFalse .done) temps).run
    execEach site rest temps

end FlowRecovery.Recipe
