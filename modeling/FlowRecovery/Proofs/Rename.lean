import FlowRecovery.Proofs.Builder
import Mathlib.Data.List.Basic
import Mathlib.Logic.Function.Basic

/-!
# `FlowRecovery.Proofs.Rename`: assignment numbers are only names

An assignment number has no meaning of its own: it says which assignment
a value comes from, and is compared with other numbers for equality and
in no other way. This file says so for everything that looks at values.
Let `f` be an injective function on numbers. Typing an application does
not see the difference between a value and its renaming, folding the
renamed application gives the renamed result (`App.fold_rename`), and so
do reading and writing a register (`RegFile.set_rename`) and asking for
an earlier name of a right-hand side (`lookup_rename`).
-/

set_option autoImplicit false

namespace FlowRecovery

/-! ### Renaming -/

section Definitions

variable (f : AssignId → AssignId)

/-- Assignments are renamed, and nothing else is. -/
def Value.rename : Value → Value
  | .assign id ty => .assign (f id) ty
  | v => v

/-- Rename the operands. -/
def App.rename : App → App
  | .unary op arg => .unary op (arg.rename f)
  | .binary op left right => .binary op (left.rename f) (right.rename f)
  | .ext op arg width => .ext op (arg.rename f) width
  | .select cond onTrue onFalse =>
    .select (cond.rename f) (onTrue.rename f) (onFalse.rename f)

/-- Rename the arguments. -/
def Prim.rename (p : Prim) : Prim :=
  { p with args := p.args.map (Value.rename f) }

/-- Rename what a right-hand side reads. -/
def Rhs.rename : Rhs → Rhs
  | .app a => .app (a.rename f)
  | .load addr bytes => .load (addr.rename f) bytes
  | .prim p => .prim (p.rename f)

/-- Rename what a statement reads, and what it assigns. -/
def Stmt.rename : Stmt → Stmt
  | .assign id ty rhs => .assign (f id) ty (rhs.rename f)
  | .store addr value => .store (addr.rename f) (value.rename f)
  | .arch name args => .arch name (args.map (Value.rename f))
  | .instruction addr size => .instruction addr size
  | .comment text => .comment text

/-- Rename the values of all registers. -/
def RegFile.rename (regs : RegFile) : RegFile :=
  ⟨regs.values.map (Value.rename f)⟩

/-- Rename what an exit holds. Block numbers stay. -/
def Exit.rename : Exit → Exit
  | .fetch regs => .fetch (regs.rename f)
  | .branch cond onTrue onFalse => .branch (cond.rename f) onTrue onFalse
  | .failed regs addr reason => .failed (regs.rename f) addr reason
  | .arch regs name args => .arch (regs.rename f) name (args.map (Value.rename f))

/-- Rename a finished block. -/
def Block.rename (b : Block) : Block :=
  { b with stmts := b.stmts.map (Stmt.rename f), exit := b.exit.rename f }

/-- Rename an open block, with the results that it remembers. -/
def OpenBlock.rename (b : OpenBlock) : OpenBlock :=
  { b with
    stmts := b.stmts.map (Stmt.rename f)
    regs := b.regs.rename f
    memo := b.memo.map (Prod.map (Rhs.rename f) (Value.rename f)) }

/-- Rename the open block that a checkpoint holds. The counts stay. -/
def Checkpoint.rename (c : Checkpoint) : Checkpoint :=
  { c with current := c.current.map (OpenBlock.rename f) }

/-- Replace every leaf. -/
def Expr.map {α β : Type} (g : α → β) : Expr α → Expr β
  | .leaf a => .leaf (g a)
  | .unary op arg => .unary op (arg.map g)
  | .binary op left right => .binary op (left.map g) (right.map g)
  | .ext op arg width => .ext op (arg.map g) width
  | .select cond onTrue onFalse => .select (cond.map g) (onTrue.map g) (onFalse.map g)

end Definitions

variable {f : AssignId → AssignId}

/-! ### Values -/

namespace Value

/-- A literal mentions no assignment. -/
@[simp] theorem rename_ofWord (width : Nat) (w : Word) :
    (ofWord width w).rename f = ofWord width w := rfl

/-- Renaming keeps the type. -/
@[simp] theorem ty_rename (v : Value) : (v.rename f).ty = v.ty := by cases v <;> rfl

/-- A clobbered value stays clobbered, and no other becomes so. -/
@[simp] theorem isClobbered_rename (v : Value) : (v.rename f).isClobbered = v.isClobbered := by
  cases v <;> rfl

/-- Whether a value is zero does not depend on names. -/
@[simp] theorem isZero_rename (v : Value) : (v.rename f).isZero = v.isZero := by cases v <;> rfl

/-- Neither does whether it is one. -/
@[simp] theorem isOne_rename (v : Value) : (v.rename f).isOne = v.isOne := by cases v <;> rfl

/-- Neither does whether all its bits are set. -/
@[simp] theorem isAllOnes_rename (v : Value) : (v.rename f).isAllOnes = v.isAllOnes := by
  cases v <;> rfl

/-- A boolean literal stays what it is. -/
@[simp] theorem bool?_rename (v : Value) : (v.rename f).bool? = v.bool? := by cases v <;> rfl

/-- Only literals and relocated addresses are addresses, and they have no
name. -/
@[simp] theorem address?_rename (img : Image) (v : Value) :
    (v.rename f).address? img = v.address? img := by
  cases v <;> rfl

/-- The zero of a type has no name. -/
@[simp] theorem zeroLike_rename (v : Value) : (v.rename f).zeroLike = v.zeroLike.rename f := by
  rw [zeroLike, zeroLike, ty_rename, rename_ofWord]

/-- Different values stay different. -/
theorem rename_injective (hf : Function.Injective f) : Function.Injective (rename f) := by
  intro v w h
  cases v with
  | assign id ty =>
    cases w with
    | assign id' ty' =>
      obtain ⟨hid, hty⟩ := Value.assign.inj h
      rw [hf hid, hty]
    | bool | bv | reloc | initial | returnAddr | clobbered => cases h
  | bool | bv | reloc | initial | returnAddr | clobbered =>
    cases w with
    | assign => cases h
    | bool | bv | reloc | initial | returnAddr | clobbered => exact h

/-- So what is surely equal stays so, and nothing else becomes so. -/
theorem surelyEqual_rename (hf : Function.Injective f) (left right : Value) :
    (left.rename f).surelyEqual (right.rename f) = left.surelyEqual right := by
  rw [surelyEqual, surelyEqual, isClobbered_rename]
  congr 1
  rw [Bool.eq_iff_iff, beq_iff_eq, beq_iff_eq]
  exact (rename_injective hf).eq_iff

/-- An address is moved by a literal. Neither has a name to change. -/
theorem relocate_rename (move : Word → Word → Word) (left right : Value) :
    relocate move (left.rename f) (right.rename f) =
      (relocate move left right).map (rename f) := by
  cases left with
  | reloc => cases right <;> rfl
  | bool | bv | initial | returnAddr | clobbered | assign => rfl

end Value

/-- Reading a register gives the renamed value. -/
theorem RegFile.get?_rename (regs : RegFile) (r : Reg) :
    (regs.rename f).get? r = (regs.get? r).map (Value.rename f) :=
  List.getElem?_map

/-- A write is accepted or refused alike, since types are what is
checked. -/
theorem RegFile.set_rename (regs : RegFile) (r : Reg) (v : Value) :
    (regs.rename f).set r (v.rename f) = (regs.set r v).map (RegFile.rename f) := by
  unfold RegFile.set
  rw [get?_rename]
  cases regs.get? r with
  | none => rfl
  | some held =>
    simp only [Option.map_some, Value.ty_rename]
    split
    · simp [Except.map, rename, List.map_set]
    · rfl

/-! ### Folding -/

/-- Folding a unary operator looks at literals only. -/
theorem UnaryOp.fold_rename (op : UnaryOp) (arg : Value) :
    op.fold (arg.rename f) = (op.fold arg).map (Value.rename f) := by
  cases op with
  | not | neg | boolNot => cases arg <;> rfl

/-- Folding a change of width looks at the type and at literals. -/
theorem ExtOp.fold_rename (op : ExtOp) (arg : Value) (target : Nat) :
    op.fold (arg.rename f) target = (op.fold arg target).map (Value.rename f) := by
  unfold ExtOp.fold
  rw [Value.ty_rename]
  split
  · rfl
  · cases arg with
    | bv width w => cases op <;> rfl
    | bool | reloc | initial | returnAddr | clobbered | assign => rfl

/-- A result computed from literals is a literal. -/
theorem BinaryOp.rename_evalWords (op : BinaryOp) (width : Nat) (a b : Word) :
    (op.evalWords width a b).map (Value.rename f) = op.evalWords width a b := by
  unfold BinaryOp.evalWords
  split
  · rfl
  · cases op <;> rfl

@[inherit_doc BinaryOp.rename_evalWords]
theorem BinaryOp.rename_evalBools (op : BinaryOp) (a b : Bool) :
    (op.evalBools a b).map (Value.rename f) = op.evalBools a b := by
  cases op <;> rfl

/-- The identities ask which operands are equal and which are certain
literals. -/
theorem BinaryOp.simplify_rename (hf : Function.Injective f) (op : BinaryOp)
    (left right : Value) :
    op.simplify (left.rename f) (right.rename f) =
      (op.simplify left right).map (Value.rename f) := by
  have hbool (b : Bool) : (Value.bool b).rename f = .bool b := rfl
  cases op <;>
    simp only [simplify, Value.surelyEqual_rename hf, Value.isZero_rename, Value.isOne_rename,
      Value.isAllOnes_rename, Value.bool?_rename, Value.zeroLike_rename, Value.relocate_rename,
      apply_ite (Option.map (Value.rename f)), Option.map_some, Option.map_none, Option.map_or,
      hbool]

/-- Two literals are computed, and everything else is left to the
identities. -/
theorem BinaryOp.fold_rename (hf : Function.Injective f) (op : BinaryOp) (left right : Value) :
    op.fold (left.rename f) (right.rename f) = (op.fold left right).map (Value.rename f) := by
  cases left with
  | bv width a =>
    cases right with
    | bv width' b => exact (rename_evalWords op width a b).symm
    | bool | reloc | initial | returnAddr | clobbered | assign => exact simplify_rename hf op _ _
  | bool a =>
    cases right with
    | bool b => exact (rename_evalBools op a b).symm
    | bv | reloc | initial | returnAddr | clobbered | assign => exact simplify_rename hf op _ _
  | reloc | initial | returnAddr | clobbered | assign => exact simplify_rename hf op _ _

/-- A choice is folded by its condition or by equal arms. -/
theorem Value.foldSelect_rename (hf : Function.Injective f) (cond onTrue onFalse : Value) :
    (cond.rename f).foldSelect (onTrue.rename f) (onFalse.rename f) =
      (cond.foldSelect onTrue onFalse).map (Value.rename f) := by
  have hopen : (if (onTrue.rename f).surelyEqual (onFalse.rename f) then some (onTrue.rename f)
      else none) =
      (if onTrue.surelyEqual onFalse then some onTrue else none).map (rename f) := by
    rw [surelyEqual_rename hf, apply_ite (Option.map (rename f)), Option.map_some, Option.map_none]
  cases cond with
  | bool c => cases c <;> rfl
  | bv | reloc | initial | returnAddr | clobbered | assign => exact hopen

namespace App

/-- Folding commutes with renaming. -/
theorem fold_rename (hf : Function.Injective f) (app : App) :
    (app.rename f).fold = app.fold.map (Value.rename f) := by
  cases app with
  | unary op arg => exact op.fold_rename arg
  | binary op left right => exact op.fold_rename hf left right
  | ext op arg width => exact op.fold_rename arg width
  | select cond onTrue onFalse => exact cond.foldSelect_rename hf onTrue onFalse

/-- The operands of a renamed application. -/
@[simp] theorem operands_rename (app : App) :
    (app.rename f).operands = app.operands.map (Value.rename f) := by
  cases app <;> rfl

/-- Typing looks at the types of the operands only. -/
theorem resultType_rename (app : App) : (app.rename f).resultType = app.resultType := by
  have hname : (app.rename f).name = app.name := by cases app <;> rfl
  have hty : Value.ty ∘ Value.rename f = Value.ty := funext Value.ty_rename
  have hbad : (app.rename f).badOperand? = app.badOperand? := by
    rw [badOperand?, badOperand?, operands_rename, List.map_map, hty]
  have hfault : (app.rename f).resultFault = app.resultFault := by
    unfold resultFault
    rw [hbad]
    cases app <;> simp only [rename, Value.ty_rename]
  rw [resultType, resultType, hname, hfault]

/-- Different applications stay different. -/
theorem rename_injective (hf : Function.Injective f) : Function.Injective (rename f) := by
  have hvalue := Value.rename_injective hf
  intro app app' h
  cases app with
  | unary op arg =>
    cases app' with
    | unary op' arg' =>
      obtain ⟨hop, harg⟩ := App.unary.inj h
      rw [hop, hvalue harg]
    | binary | ext | select => cases h
  | binary op left right =>
    cases app' with
    | binary op' left' right' =>
      obtain ⟨hop, hleft, hright⟩ := App.binary.inj h
      rw [hop, hvalue hleft, hvalue hright]
    | unary | ext | select => cases h
  | ext op arg width =>
    cases app' with
    | ext op' arg' width' =>
      obtain ⟨hop, harg, hwidth⟩ := App.ext.inj h
      rw [hop, hvalue harg, hwidth]
    | unary | binary | select => cases h
  | select cond onTrue onFalse =>
    cases app' with
    | select cond' onTrue' onFalse' =>
      obtain ⟨hcond, htrue, hfalse⟩ := App.select.inj h
      rw [hvalue hcond, hvalue htrue, hvalue hfalse]
    | unary | binary | ext => cases h

end App

/-! ### Remembered results -/

/-- Different primitives stay different. -/
theorem Prim.rename_injective (hf : Function.Injective f) : Function.Injective (rename f) := by
  rintro ⟨name, args, ty, isPure⟩ ⟨name', args', ty', isPure'⟩ h
  obtain ⟨hname, hargs, hty, hpure⟩ := Prim.mk.inj h
  simp only at hname hargs hty hpure
  rw [hname, List.map_injective_iff.2 (Value.rename_injective hf) hargs, hty, hpure]

namespace Rhs

/-- The operands of a renamed right-hand side. -/
@[simp] theorem operands_rename (rhs : Rhs) :
    (rhs.rename f).operands = rhs.operands.map (Value.rename f) := by
  cases rhs with
  | app a => exact a.operands_rename
  | load | prim => rfl

/-- Different right-hand sides stay different. -/
theorem rename_injective (hf : Function.Injective f) : Function.Injective (rename f) := by
  intro rhs rhs' h
  cases rhs with
  | app a =>
    cases rhs' with
    | app a' => rw [App.rename_injective hf (Rhs.app.inj h)]
    | load | prim => cases h
  | load addr bytes =>
    cases rhs' with
    | load addr' bytes' =>
      obtain ⟨haddr, hbytes⟩ := Rhs.load.inj h
      rw [Value.rename_injective hf haddr, hbytes]
    | app | prim => cases h
  | prim p =>
    cases rhs' with
    | prim p' => rw [Prim.rename_injective hf (Rhs.prim.inj h)]
    | app | load => cases h

end Rhs

/-- Looking up commutes with a change of the entries that keeps the keys
apart. -/
theorem lookup_map {α β γ δ : Type} [BEq α] [BEq γ] {key : α → γ}
    (hkey : ∀ a b, (key a == key b) = (a == b)) (g : β → δ) (entries : List (α × β)) (k : α) :
    (entries.map (Prod.map key g)).lookup (key k) = (entries.lookup k).map g := by
  induction entries with
  | nil => rfl
  | cons entry rest ih =>
    rw [List.map_cons, List.lookup_cons, List.lookup_cons, ih]
    simp only [Prod.map_fst, Prod.map_snd, hkey]
    cases k == entry.1 <;> rfl

/-- An earlier name is found under the new names, since no two right-hand
sides become one. -/
theorem lookup_rename (hf : Function.Injective f) (memo : List (Rhs × Value)) (rhs : Rhs) :
    (memo.map (Prod.map (Rhs.rename f) (Value.rename f))).lookup (rhs.rename f) =
      (memo.lookup rhs).map (Value.rename f) := by
  refine lookup_map (fun a b => ?_) _ memo rhs
  rw [Bool.eq_iff_iff, beq_iff_eq, beq_iff_eq]
  exact (Rhs.rename_injective hf).eq_iff

/-- The same right-hand sides are remembered. -/
theorem Build.remembers_rename (rhs : Rhs) (memoize : Bool) :
    remembers (rhs.rename f) memoize = remembers rhs memoize := by
  have hclobbered : Value.isClobbered ∘ Value.rename f = Value.isClobbered :=
    funext Value.isClobbered_rename
  rw [remembers, remembers, Rhs.operands_rename, List.any_map, hclobbered]

/-- A constant of read-only memory is a literal. -/
theorem Build.constantAt?_rename (img : Image) (addr : Value) (bytes : Nat) :
    constantAt? img (addr.rename f) bytes =
      (constantAt? img addr bytes).map (Value.rename f) := by
  rw [constantAt?, constantAt?, Value.address?_rename]
  cases addr.address? img with
  | none => rfl
  | some a =>
    cases hread : img.readOnlyUInt? a bytes with
    | none => simp [hread]
    | some w => simp [hread]

end FlowRecovery
