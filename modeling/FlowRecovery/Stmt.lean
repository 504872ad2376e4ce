import FlowRecovery.Operator

/-!
# `FlowRecovery.Stmt`: the statements of a block

A block is a list of statements: assignments of a computed, loaded or
primitive result, stores, statements only the machine understands, and
two kinds of markers that compute nothing.
-/

set_option autoImplicit false

namespace FlowRecovery

/-- A machine primitive that produces a value, such as a flag that the
operators cannot express. A pure one depends on its arguments alone. -/
structure Prim where
  name : String
  args : List Value
  ty : Ty
  isPure : Bool
deriving DecidableEq, Repr, Ord

/-- The right-hand side of an assignment. -/
inductive Rhs where
  | app (a : App)
  | load (addr : Value) (bytes : Nat)
  | prim (p : Prim)
deriving DecidableEq, Repr, Ord

namespace Rhs

/-- The values that are read, left to right. -/
def operands : Rhs → List Value
  | .app a => a.operands
  | .load addr _ => [addr]
  | .prim p => p.args

/-- The right-hand side in print. -/
def text : Rhs → String
  | .app a => a.text
  | .load addr bytes => s!"mem{bytes * 8}[{addr.text}]"
  | .prim p => s!"{p.name}({Value.listText p.args})"

end Rhs

/-- One statement. -/
inductive Stmt where
  | assign (id : AssignId) (ty : Ty) (rhs : Rhs)
  | store (addr value : Value)
  /-- A statement of the machine's own, without a result. -/
  | arch (name : String) (args : List Value)
  /-- The start of the instruction of `size` bytes at `addr`. -/
  | instruction (addr : Word) (size : Nat)
  | comment (text : String)
deriving DecidableEq, Repr

namespace Stmt

/-- Markers and comments compute nothing. -/
def isPseudo : Stmt → Bool
  | .instruction .. | .comment _ => true
  | _ => false

/-- Is it the marker of an instruction? -/
def isInstruction : Stmt → Bool
  | .instruction .. => true
  | _ => false

/-- The value an assignment gives a name to. -/
def result? : Stmt → Option Value
  | .assign id ty _ => some (.assign id ty)
  | _ => none

/-- The assignment that the statement is. -/
def assignId? : Stmt → Option AssignId
  | .assign id _ _ => some id
  | _ => none

/-- The values that the statement reads. -/
def uses : Stmt → List Value
  | .assign _ _ rhs => rhs.operands
  | .store addr value => [addr, value]
  | .arch _ args => args
  | .instruction .. | .comment _ => []

/-- The numbers of the assignments that the statement reads. -/
def usedIds (s : Stmt) : List AssignId :=
  s.uses.filterMap Value.assignId?

/-- The statement in print. -/
def text : Stmt → String
  | .assign id _ rhs => s!"{AssignId.text id} := {rhs.text}"
  | .store addr value => s!"mem[{addr.text}] := {value.text}"
  | .arch name args => s!"{name}({Value.listText args})"
  | .instruction addr size => s!"# {addr.hex} ({size} bytes)"
  | .comment text => s!"# {text}"

end Stmt

end FlowRecovery
