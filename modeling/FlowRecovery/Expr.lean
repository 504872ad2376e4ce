import FlowRecovery.Operator

/-!
# `FlowRecovery.Expr`: expression trees

An expression is a tree of operators. Its leaves are values when it is
ready to be evaluated, and something else (register names, temporaries)
before; `Expr.resolve` turns the second kind into the first.
-/

set_option autoImplicit false

namespace FlowRecovery

/-- A tree of operators over leaves of type `α`. -/
inductive Expr (α : Type) where
  | leaf (a : α)
  | unary (op : UnaryOp) (arg : Expr α)
  | binary (op : BinaryOp) (left right : Expr α)
  | ext (op : ExtOp) (arg : Expr α) (width : Nat)
  | select (cond onTrue onFalse : Expr α)
deriving DecidableEq, Repr

namespace Expr

/-- The tree in print. -/
def text : Expr Value → String
  | .leaf v => v.text
  | .unary op arg => s!"{op.name}({arg.text})"
  | .binary op left right => s!"{op.name}({left.text}, {right.text})"
  | .ext op arg width => s!"{op.name}({arg.text}, {width})"
  | .select cond onTrue onFalse => s!"select({cond.text}, {onTrue.text}, {onFalse.text})"

/-- Replace every leaf, depth first and left to right. -/
def resolve {α β : Type} {m : Type → Type} [Monad m] (f : α → m β) : Expr α → m (Expr β)
  | .leaf a => .leaf <$> f a
  | .unary op arg => .unary op <$> arg.resolve f
  | .binary op left right => do
    let left ← left.resolve f
    let right ← right.resolve f
    return .binary op left right
  | .ext op arg width => (.ext op · width) <$> arg.resolve f
  | .select cond onTrue onFalse => do
    let cond ← cond.resolve f
    let onTrue ← onTrue.resolve f
    let onFalse ← onFalse.resolve f
    return .select cond onTrue onFalse

end Expr

end FlowRecovery
