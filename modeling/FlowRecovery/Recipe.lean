import FlowRecovery.Builder

/-!
# `FlowRecovery.Recipe`: what an instruction does

A recipe describes one instruction as a sequence of steps on the block
under construction, with named temporaries and two-way branches that may
nest. It is data: `FlowRecovery.Recipe.Run` carries it out.

So an instruction is described by less than a program could do. Its recipe
is fixed by the instruction, its address and its size, and only branches
make it depend on what the block holds. It stops at the first step that
fails. And the checkpoints that it names are its own: no other instruction
can return to them.
-/

set_option autoImplicit false

namespace FlowRecovery

/-- A leaf of an expression in a recipe. -/
inductive Recipe.Leaf where
  | value (v : Value)
  /-- What the register holds now. -/
  | reg (r : Reg)
  /-- What was bound to this name on the way here. -/
  | temp (name : String)
  /-- A part of the instruction that could not be decoded. -/
  | undecodable (reason : String)
deriving DecidableEq, Repr

/-- An expression in a recipe. -/
abbrev Recipe.Term := Expr Recipe.Leaf

/-- The ways a recipe closes its block. -/
inductive Recipe.Closing where
  | fetch
  | branch (cond : Recipe.Term) (onTrue onFalse : BlockIndex)
  | failed (addr : Word) (reason : String)
  | arch (name : String) (args : List Recipe.Term)
deriving DecidableEq, Repr

/-- One step of a recipe. -/
inductive Recipe.Step where
  /-- Evaluate and bind. -/
  | bind (name : String) (e : Recipe.Term)
  /-- Load from memory and bind. -/
  | load (name : String) (addr : Recipe.Term) (bytes : Nat)
  /-- Evaluate a machine primitive and bind. -/
  | prim (name primitive : String) (args : List Recipe.Term) (ty : Ty) (isPure : Bool)
  | set (r : Reg) (e : Recipe.Term)
  | setIp (addr : Word)
  /-- Point the instruction pointer at the next instruction. -/
  | advance
  | store (addr value : Recipe.Term)
  /-- Append a statement as it is. -/
  | emit (s : Stmt)
  | arch (name : String) (args : List Recipe.Term)
  | close (c : Recipe.Closing)
  | fail (reason : String)
  /-- Move the address at which new blocks start. -/
  | moveTo (addr : Word)
  /-- Name a checkpoint. -/
  | save (name : String)
  /-- Return to a named checkpoint, which stays usable. -/
  | restore (name : String)
  /-- Do nothing but be seen in the trace. -/
  | look
deriving DecidableEq, Repr

/-- The description of an instruction. -/
inductive Recipe where
  | done
  | step (s : Recipe.Step) (rest : Recipe)
  | branch (cond : Recipe.Term) (onTrue onFalse rest : Recipe)
deriving DecidableEq, Repr

/-- One more than the number of branch arms in the recipe. Carrying out
a recipe leaves arms behind whose sizes add up to less than its own. -/
def Recipe.size : Recipe → Nat
  | .done => 1
  | .step _ rest => rest.size
  | .branch _ onTrue onFalse rest => onTrue.size + onFalse.size + rest.size

/-- No recipe has size zero. -/
theorem Recipe.size_pos (r : Recipe) : 0 < r.size := by
  induction r with
  | done => decide
  | step _ _ ih => exact ih
  | branch _ _ _ _ ih _ _ => simp only [Recipe.size]; omega

end FlowRecovery
