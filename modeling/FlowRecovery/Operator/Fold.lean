import FlowRecovery.Operator

/-!
# `FlowRecovery.Operator.Fold`: simplifying one application

`App.fold` replaces an application by a value it is certain to equal:
all-literal applications are computed, and a few identities with at most
one literal operand are used. It looks one level deep and expects its
operands to be folded already. Arithmetic wraps at the operands' width.

Two clobbered values are never taken to be equal, even when they look
the same. The rule for two literals reads the width of the left one
only; on well-typed applications the two widths agree.
-/

set_option autoImplicit false

namespace FlowRecovery

/-- A unary operator on a literal. -/
def UnaryOp.fold : UnaryOp → Value → Option Value
  | .not, .bv width w => some (.ofWord width (~~~w))
  | .neg, .bv width w => some (.ofWord width (-w))
  | .boolNot, .bool b => some (.bool !b)
  | _, _ => none

/-- A change of width that changes nothing, or one of a literal. -/
def ExtOp.fold (op : ExtOp) (arg : Value) (target : Nat) : Option Value :=
  if arg.ty = .bv target then some arg
  else
    match arg with
    | .bv width w =>
      some <| match op with
        | .trunc | .uext => .ofWord target w
        | .sext => .ofWord target (Word.ofSigned (w.toSigned width))
    | _ => none

namespace BinaryOp

/-- Two bitvector literals. Shifts by the width or more leave nothing
but copies of the sign bit (`ashr`) or zeros. -/
def evalWords (op : BinaryOp) (width : Nat) (a b : Word) : Option Value :=
  if !(Ty.bv width).isValid then none
  else
    match op with
    | .add => some (.ofWord width (a + b))
    | .sub => some (.ofWord width (a - b))
    | .mul => some (.ofWord width (a * b))
    | .and => some (.ofWord width (a &&& b))
    | .or => some (.ofWord width (a ||| b))
    | .xor => some (.ofWord width (a ^^^ b))
    | .shl => some (.ofWord width (if width ≤ b.toNat then 0 else a <<< b.toNat))
    | .lshr => some (.ofWord width (if width ≤ b.toNat then 0 else a >>> b.toNat))
    | .ashr =>
      some (.ofWord width (Word.ofSigned (a.toSigned width >>> min b.toNat (width - 1))))
    | .eq => some (.bool (a == b))
    | .ne => some (.bool (a != b))
    | .ult => some (.bool (decide (a < b)))
    | .ule => some (.bool (decide (a ≤ b)))
    | .slt => some (.bool (decide (a.toSigned width < b.toSigned width)))
    | .sle => some (.bool (decide (a.toSigned width ≤ b.toSigned width)))
    | .boolAnd | .boolOr | .boolXor => none

/-- Two boolean literals. -/
def evalBools : BinaryOp → Bool → Bool → Option Value
  | .boolAnd, a, b => some (.bool (a && b))
  | .boolOr, a, b => some (.bool (a || b))
  | .boolXor, a, b | .ne, a, b => some (.bool (a != b))
  | .eq, a, b => some (.bool (a == b))
  | _, _, _ => none

end BinaryOp

namespace Value

/-- Are the two certain to be the same value? -/
def surelyEqual (left right : Value) : Bool :=
  left == right && !left.isClobbered

/-- The zero of this value's width. -/
def zeroLike (v : Value) : Value :=
  .ofWord (v.ty.width?.getD 0) 0

/-- A segment-relative address moved by a literal distance, with `move`
the addition or subtraction of words. -/
def relocate (move : Word → Word → Word) : Value → Value → Option Value
  | .reloc segment offset width, .bv _ delta =>
    some (.reloc segment (Word.keepLow width (move offset delta)) width)
  | _, _ => none

end Value

/-- Identities with at most one literal operand. -/
def BinaryOp.simplify (op : BinaryOp) (left right : Value) : Option Value :=
  let same := left.surelyEqual right
  match op with
  | .and =>
    if same || right.isAllOnes then some left
    else if left.isAllOnes then some right
    else if left.isZero || right.isZero then some left.zeroLike
    else none
  | .or =>
    if same || right.isZero then some left
    else if left.isZero then some right
    else if left.isAllOnes then some left
    else if right.isAllOnes then some right
    else none
  | .xor =>
    if same then some left.zeroLike
    else if right.isZero then some left
    else if left.isZero then some right
    else none
  | .add =>
    if right.isZero then some left
    else if left.isZero then some right
    else (Value.relocate (· + ·) left right).or (Value.relocate (· + ·) right left)
  | .sub =>
    if same then some left.zeroLike
    else if right.isZero then some left
    else Value.relocate (· - ·) left right
  | .mul =>
    if right.isOne then some left
    else if left.isOne then some right
    else if left.isZero || right.isZero then some left.zeroLike
    else none
  | .shl | .lshr | .ashr =>
    if right.isZero then some left
    else if left.isZero then some left.zeroLike
    else none
  | .eq | .sle => if same then some (.bool true) else none
  | .ne | .slt => if same then some (.bool false) else none
  | .ult => if same || right.isZero then some (.bool false) else none
  | .ule => if same || left.isZero then some (.bool true) else none
  | .boolAnd =>
    if left.bool? = some false || right.bool? = some false then some (.bool false)
    else if left.bool? = some true then some right
    else if right.bool? = some true || same then some left
    else none
  | .boolOr =>
    if left.bool? = some true || right.bool? = some true then some (.bool true)
    else if left.bool? = some false then some right
    else if right.bool? = some false || same then some left
    else none
  | .boolXor =>
    if same then some (.bool false)
    else if left.bool? = some false then some right
    else if right.bool? = some false then some left
    else none

/-- A binary operator: computed on two literals of one kind, simplified
otherwise. -/
def BinaryOp.fold (op : BinaryOp) (left right : Value) : Option Value :=
  match left, right with
  | .bv width a, .bv _ b => op.evalWords width a b
  | .bool a, .bool b => op.evalBools a b
  | _, _ => op.simplify left right

/-- A choice whose condition is known, or between two equal values. -/
def Value.foldSelect (cond onTrue onFalse : Value) : Option Value :=
  match cond with
  | .bool c => some (if c then onTrue else onFalse)
  | _ => if onTrue.surelyEqual onFalse then some onTrue else none

/-- A value certain to equal the application, if one is found. -/
def App.fold : App → Option Value
  | .unary op arg => op.fold arg
  | .binary op left right => op.fold left right
  | .ext op arg width => op.fold arg width
  | .select cond onTrue onFalse => cond.foldSelect onTrue onFalse

end FlowRecovery
