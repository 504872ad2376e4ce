import FlowRecovery.Violation

/-!
# `FlowRecovery.Operator`: operators, applications and their types

An `App` is an operator applied to values: what the right-hand side of
an assignment computes. `App.resultType` is the typing rule. It first
asks every operand for a type in range, then checks the operator's own
demands, and names the fault it meets first.
-/

set_option autoImplicit false

namespace FlowRecovery

/-- Operators with one operand. -/
inductive UnaryOp where
  /-- Bitwise complement. -/
  | not
  /-- Two's-complement negation. -/
  | neg
  /-- Boolean negation. -/
  | boolNot
deriving DecidableEq, Repr, Ord

/-- Operators with two operands of one type. -/
inductive BinaryOp where
  | add | sub | mul
  | and | or | xor
  | shl | lshr | ashr
  | eq | ne | ult | ule | slt | sle
  | boolAnd | boolOr | boolXor
deriving DecidableEq, Repr, Ord

/-- Operators that change the width of a bitvector. -/
inductive ExtOp where
  | trunc | uext | sext
deriving DecidableEq, Repr, Ord

/-- The name of the operator in print. -/
def UnaryOp.name : UnaryOp → String
  | .not => "not"
  | .neg => "neg"
  | .boolNot => "bool_not"

namespace BinaryOp

/-- The name of the operator in print. -/
def name : BinaryOp → String
  | .add => "add"
  | .sub => "sub"
  | .mul => "mul"
  | .and => "and"
  | .or => "or"
  | .xor => "xor"
  | .shl => "shl"
  | .lshr => "lshr"
  | .ashr => "ashr"
  | .eq => "eq"
  | .ne => "ne"
  | .ult => "ult"
  | .ule => "ule"
  | .slt => "slt"
  | .sle => "sle"
  | .boolAnd => "bool_and"
  | .boolOr => "bool_or"
  | .boolXor => "bool_xor"

/-- Comparisons take two operands of one type to a boolean. -/
def isComparison : BinaryOp → Bool
  | .eq | .ne | .ult | .ule | .slt | .sle => true
  | _ => false

/-- Operators over booleans. -/
def isBoolean : BinaryOp → Bool
  | .boolAnd | .boolOr | .boolXor => true
  | _ => false

end BinaryOp

/-- The name of the operator in print. -/
def ExtOp.name : ExtOp → String
  | .trunc => "trunc"
  | .uext => "uext"
  | .sext => "sext"

/-- An operator applied to values. -/
inductive App where
  | unary (op : UnaryOp) (arg : Value)
  | binary (op : BinaryOp) (left right : Value)
  | ext (op : ExtOp) (arg : Value) (width : Nat)
  | select (cond onTrue onFalse : Value)
deriving DecidableEq, Repr, Ord

namespace App

/-- The name of the operator that is applied. -/
def name : App → String
  | .unary op _ => op.name
  | .binary op _ _ => op.name
  | .ext op _ _ => op.name
  | .select .. => "select"

/-- The operands, left to right. -/
def operands : App → List Value
  | .unary _ arg | .ext _ arg _ => [arg]
  | .binary _ left right => [left, right]
  | .select cond onTrue onFalse => [cond, onTrue, onFalse]

/-- The application in print. -/
def text : App → String
  | .ext op arg width => s!"{op.name}({arg.text}, {width})"
  | app => s!"{app.name}({Value.listText app.operands})"

end App

/-- The result type of a unary operator. -/
def UnaryOp.resultType : UnaryOp → Ty → Except TypeFault Ty
  | .boolNot, .bool => .ok .bool
  | .not, .bv w | .neg, .bv w => .ok (.bv w)
  | _, ty => .error (.operandType ty)

/-- The result type of a binary operator on two operands of type `ty`.
Equality takes any type. -/
def BinaryOp.resultType (op : BinaryOp) (ty : Ty) : Except TypeFault Ty :=
  match op, ty with
  | .eq, _ | .ne, _ => .ok .bool
  | _, .bool => if op.isBoolean then .ok .bool else .error (.operandsType ty)
  | _, .bv w =>
    if op.isComparison then .ok .bool
    else if op.isBoolean then .error (.operandsType ty)
    else .ok (.bv w)

/-- May this operator take `width` bits to `target` bits? -/
def ExtOp.allows : ExtOp → Nat → Nat → Bool
  | .trunc, width, target => decide (target ≤ width)
  | .uext, width, target | .sext, width, target => decide (width ≤ target)

/-- The result type of a change of width. -/
def ExtOp.resultType (op : ExtOp) (ty : Ty) (target : Nat) : Except TypeFault Ty :=
  match ty with
  | .bool => .error (.operandType .bool)
  | .bv width =>
    if !(Ty.bv target).isValid then .error (.targetOutOfRange target)
    else if op.allows width target then .ok (.bv target)
    else .error (.cannotChange width target)

namespace App

/-- The first operand type that is out of range. -/
def badOperand? (app : App) : Option Ty :=
  (app.operands.map Value.ty).find? (!·.isValid)

/-- The type of the result, or the first reason why there is none. -/
def resultFault (app : App) : Except TypeFault Ty :=
  match app.badOperand? with
  | some ty => .error (.operandOutOfRange ty)
  | none =>
    match app with
    | .unary op arg => op.resultType arg.ty
    | .binary op left right =>
      if left.ty = right.ty then op.resultType left.ty
      else .error (.operandsDiffer left.ty right.ty)
    | .ext op arg width => op.resultType arg.ty width
    | .select cond onTrue onFalse =>
      if cond.ty ≠ .bool then .error (.conditionType cond.ty)
      else if onTrue.ty = onFalse.ty then .ok onTrue.ty
      else .error (.armsDiffer onTrue.ty onFalse.ty)

/-- The type of the result; a fault is reported under the operator's
name. -/
def resultType (app : App) : Except Violation Ty :=
  app.resultFault.mapError (.illTyped app.name)

end App

end FlowRecovery
