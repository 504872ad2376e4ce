import FlowRecovery.Stmt

/-!
# `FlowRecovery.Definitions`: what has been assigned and stored so far

While a function is explored, every assignment and every store is
recorded. From the assignments a value can be read back as an entry
register plus a constant, its linear form.

The walk through the assignments goes at most as deep as there are
assignments, and gives up there. No value needs more as long as every
assignment reads smaller numbers only. Then the walk answers as the
recursion through the definitions does, which has no bound
(`Definitions.Descends` in `FlowRecovery.Proofs.Recursion`). A recipe can
break this by handing in a number before it is taken. The definitions may
then have a cycle, through which the recursion would never come back.
-/

set_option autoImplicit false

namespace FlowRecovery

/-- The value of a register at function entry plus a constant, or just
the constant. -/
structure Linear where
  base : Option Reg
  offset : Word
deriving DecidableEq, Repr

namespace Linear

/-- The sum; two bases do not add up to one. -/
def add (a b : Linear) : Option Linear :=
  match a.base, b.base with
  | some _, some _ => none
  | base, other => some { base := base.or other, offset := a.offset + b.offset }

/-- The difference, where what is subtracted must be a constant. -/
def sub (a b : Linear) : Option Linear :=
  match b.base with
  | some _ => none
  | none => some { a with offset := a.offset - b.offset }

/-- The form with its offset cut to `width` bits. -/
def cut (width : Nat) (a : Linear) : Linear :=
  { a with offset := a.offset.keepLow width }

end Linear

/-- The assignments and stores recorded so far. -/
structure Definitions where
  /-- Right-hand sides by assignment, the newest first. -/
  assigned : List (AssignId × Rhs) := []
  /-- Address and value of every store, in order. -/
  stores : List (Value × Value) := []
deriving DecidableEq, Repr

namespace Definitions

/-- Record one statement. -/
def recordStmt (d : Definitions) : Stmt → Definitions
  | .assign id _ rhs => { d with assigned := (id, rhs) :: d.assigned }
  | .store addr value => { d with stores := d.stores ++ [(addr, value)] }
  | _ => d

/-- Record the statements of a block. -/
def record (d : Definitions) (stmts : List Stmt) : Definitions :=
  stmts.foldl recordStmt d

/-- What one list of statements records. -/
def ofStmts (stmts : List Stmt) : Definitions :=
  record {} stmts

/-- The right-hand side that defines `v`. -/
def rhs? (d : Definitions) (v : Value) : Option Rhs :=
  v.assignId?.bind fun id => d.assigned.lookup id

/-- The application that defines `v`. -/
def app? (d : Definitions) (v : Value) : Option App :=
  match d.rhs? v with
  | some (.app a) => some a
  | _ => none

/-- The linear form of `v`, given those of the operands of its
definition. -/
def linearVia (d : Definitions) (operand : Value → Option Linear) (v : Value) : Option Linear :=
  v.ty.width?.bind fun width =>
    Option.map (Linear.cut width) <|
      match v with
      | .initial reg _ => some { base := some reg, offset := 0 }
      | .bv _ w => some { base := none, offset := w }
      | .assign .. =>
        match d.app? v with
        | some (.binary .add left right) =>
          (operand left).bind fun a => (operand right).bind a.add
        | some (.binary .sub left right) =>
          (operand left).bind fun a => (operand right).bind a.sub
        | _ => none
      | _ => none

/-- The linear form of `v`, following assignments through `depth` more
after its own. -/
def linearUpTo (d : Definitions) : Nat → Value → Option Linear
  | 0 => d.linearVia fun _ => none
  | depth + 1 => d.linearVia (d.linearUpTo depth)

/-- `v` as an entry register plus a constant, if it is one. -/
def linear (d : Definitions) (v : Value) : Option Linear :=
  d.linearUpTo d.assigned.length v

end Definitions

end FlowRecovery
