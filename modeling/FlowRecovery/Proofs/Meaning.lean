import FlowRecovery.Operator.Fold
import Mathlib.Data.List.Forall2

/-!
# `FlowRecovery.Proofs.Meaning`: what values and operators mean

A `Datum` is what a value turns out to be when the program really runs:
a boolean, or a bitvector of a fixed width. The operators have their
textbook meaning on data. Arithmetic wraps at the width, shifts by the
width or more leave zeros or copies of the sign bit, and signed
comparison reads two's complement. None of this mentions words, masks
or folding, which makes it the reference that folding is held against.

A `Valuation` fixes what the symbols stand for: where segments start,
and a datum for every entry register, return address and assignment.
A clobbered value has no datum of its own. It may be any datum of its
type, and it may be a different one at each place where it occurs, so
values are related to data (`Valuation.Denotes`) and applications are
related to the data they can yield (`Valuation.Yields`), with one free
choice for each operand.

`Valuation.denote` picks one datum for every value. Where nothing is
clobbered it is the only one (`denotes_iff`).
-/

set_option autoImplicit false

namespace FlowRecovery

/-- A concrete boolean, or a concrete bitvector of some width. -/
inductive Datum where
  | bool (b : Bool)
  | bits (width : Nat) (x : BitVec width)
deriving DecidableEq, Repr

namespace Datum

/-- The type of a datum. -/
def ty : Datum → Ty
  | .bool _ => .bool
  | .bits width _ => .bv width

/-- Some datum of the given type. -/
def ofTy : Ty → Datum
  | .bool => .bool false
  | .bv width => .bits width 0

/-- The second or the third, as the first says. -/
def choose : Datum → Datum → Datum → Option Datum
  | .bool c, onTrue, onFalse => some (if c then onTrue else onFalse)
  | .bits .., _, _ => none

/-- The type of a boolean. -/
@[simp] theorem ty_bool (b : Bool) : (bool b).ty = .bool := rfl

/-- The type of a bitvector. -/
@[simp] theorem ty_bits (width : Nat) (x : BitVec width) : (bits width x).ty = .bv width := rfl

/-- There is a datum of every type. -/
@[simp] theorem ty_ofTy (ty : Ty) : (ofTy ty).ty = ty := by
  cases ty <;> rfl

/-- A datum of type bool is a boolean. -/
theorem exists_bool {d : Datum} (h : d.ty = .bool) : ∃ b, d = bool b := by
  cases d with
  | bool b => exact ⟨b, rfl⟩
  | bits width x => cases h

/-- A datum of a bitvector type is a bitvector of that width. -/
theorem exists_bits {d : Datum} {width : Nat} (h : d.ty = .bv width) :
    ∃ x, d = bits width x := by
  cases d with
  | bool b => cases h
  | bits width x => cases h; exact ⟨x, rfl⟩

/-- What holds of all bitvectors of a width holds of all data of that
type. -/
theorem forall_bits {ty : Ty} {width : Nat} (hty : ty = .bv width) {p : Datum → Prop}
    (h : ∀ x, p (bits width x)) (d : Datum) (hd : d.ty = ty) : p d := by
  obtain ⟨x, rfl⟩ := exists_bits (hd.trans hty)
  exact h x

/-- What holds of both booleans holds of all data of that type. -/
theorem forall_bool {ty : Ty} (hty : ty = .bool) {p : Datum → Prop} (h : ∀ b, p (bool b))
    (d : Datum) (hd : d.ty = ty) : p d := by
  obtain ⟨b, rfl⟩ := exists_bool (hd.trans hty)
  exact h b

end Datum

/-! ### Operators on data -/

/-- A unary operator on a datum it takes. -/
def UnaryOp.apply : UnaryOp → Datum → Option Datum
  | .not, .bits width x => some (.bits width (~~~x))
  | .neg, .bits width x => some (.bits width (-x))
  | .boolNot, .bool b => some (.bool !b)
  | _, _ => none

/-- A change of width on a bitvector. -/
def ExtOp.apply (op : ExtOp) (target : Nat) : Datum → Option Datum
  | .bits _ x =>
    some <| .bits target <| match op with
      | .trunc | .uext => x.setWidth target
      | .sext => x.signExtend target
  | .bool _ => none

namespace BinaryOp

/-- Two bitvectors of one width. The right operand of a shift is read as
an unsigned number. -/
def onBits (op : BinaryOp) {width : Nat} (x y : BitVec width) : Option Datum :=
  match op with
  | .add => some (.bits width (x + y))
  | .sub => some (.bits width (x - y))
  | .mul => some (.bits width (x * y))
  | .and => some (.bits width (x &&& y))
  | .or => some (.bits width (x ||| y))
  | .xor => some (.bits width (x ^^^ y))
  | .shl => some (.bits width (x <<< y.toNat))
  | .lshr => some (.bits width (x >>> y.toNat))
  | .ashr => some (.bits width (x.sshiftRight y.toNat))
  | .eq => some (.bool (decide (x = y)))
  | .ne => some (.bool (decide (x ≠ y)))
  | .ult => some (.bool (decide (x.toNat < y.toNat)))
  | .ule => some (.bool (decide (x.toNat ≤ y.toNat)))
  | .slt => some (.bool (decide (x.toInt < y.toInt)))
  | .sle => some (.bool (decide (x.toInt ≤ y.toInt)))
  | .boolAnd | .boolOr | .boolXor => none

/-- Two booleans. -/
def onBools : BinaryOp → Bool → Bool → Option Datum
  | .boolAnd, a, b => some (.bool (a && b))
  | .boolOr, a, b => some (.bool (a || b))
  | .boolXor, a, b => some (.bool (a ^^ b))
  | .eq, a, b => some (.bool (decide (a = b)))
  | .ne, a, b => some (.bool (decide (a ≠ b)))
  | _, _, _ => none

/-- A binary operator on two data of one type. -/
def apply (op : BinaryOp) : Datum → Datum → Option Datum
  | .bool a, .bool b => op.onBools a b
  | .bits width x, .bits width' y =>
    if h : width' = width then op.onBits x (y.cast h) else none
  | _, _ => none

/-- On bitvectors of one width the widths need not be compared. -/
@[simp] theorem apply_bits (op : BinaryOp) {width : Nat} (x y : BitVec width) :
    op.apply (.bits width x) (.bits width y) = op.onBits x y := by
  simp [apply]

/-- On booleans there are no widths. -/
@[simp] theorem apply_bool (op : BinaryOp) (a b : Bool) :
    op.apply (.bool a) (.bool b) = op.onBools a b := rfl

end BinaryOp

/-- The operator of an application on data for its operands, left to
right. -/
def App.apply : App → List Datum → Option Datum
  | .unary op _, [x] => op.apply x
  | .binary op _ _, [x, y] => op.apply x y
  | .ext op _ target, [x] => op.apply target x
  | .select .., [c, onTrue, onFalse] => c.choose onTrue onFalse
  | _, _ => none

/-! ### Typing

The typing rule of `App.resultType`, one constructor at a time, and what
it promises: on data of the operands' types the operator has a result,
and the result has the type that the rule computed. -/

/-- What is reported when typing fails does not matter to when it succeeds.
-/
theorem App.resultType_eq_ok_iff {app : App} {ty : Ty} :
    app.resultType = .ok ty ↔ app.resultFault = .ok ty := by
  unfold resultType
  cases app.resultFault with
  | error e => simp [Except.mapError]
  | ok t => simp [Except.mapError]

/-- What is wrong with an application is reported under its name. -/
theorem App.resultType_eq_error {app : App} {v : Violation} (h : app.resultType = .error v) :
    ∃ fault, v = .illTyped app.name fault := by
  unfold resultType at h
  cases hfault : app.resultFault with
  | ok ty =>
    rw [hfault] at h
    cases h
  | error fault =>
    rw [hfault] at h
    cases h
    exact ⟨fault, rfl⟩

/-- A unary application: the operand has a valid type, and the operator
takes it. -/
theorem App.resultType_unary {op : UnaryOp} {arg : Value} {ty : Ty} :
    (App.unary op arg).resultType = .ok ty ↔
      arg.ty.isValid = true ∧ op.resultType arg.ty = .ok ty := by
  rw [resultType_eq_ok_iff]
  cases hv : arg.ty.isValid <;> simp [resultFault, badOperand?, operands, hv]

/-- A binary application: both operands have one valid type, and the
operator takes it. -/
theorem App.resultType_binary {op : BinaryOp} {left right : Value} {ty : Ty} :
    (App.binary op left right).resultType = .ok ty ↔
      left.ty.isValid = true ∧ right.ty = left.ty ∧ op.resultType left.ty = .ok ty := by
  rw [resultType_eq_ok_iff]
  -- Both operands are checked before their types are compared.
  by_cases heq : right.ty = left.ty
  · cases hv : left.ty.isValid <;> simp [resultFault, badOperand?, operands, hv, heq]
  · cases hl : left.ty.isValid <;> cases hr : right.ty.isValid <;>
      simp [resultFault, badOperand?, operands, hl, hr, heq, Ne.symm heq]

/-- A change of width: the operand has a valid type, and may be changed to
that width. -/
theorem App.resultType_ext {op : ExtOp} {arg : Value} {target : Nat} {ty : Ty} :
    (App.ext op arg target).resultType = .ok ty ↔
      arg.ty.isValid = true ∧ op.resultType arg.ty target = .ok ty := by
  rw [resultType_eq_ok_iff]
  cases hv : arg.ty.isValid <;> simp [resultFault, badOperand?, operands, hv]

/-- A choice: the condition is a boolean, and the arms have one valid type,
which is that of the choice. -/
theorem App.resultType_select {cond onTrue onFalse : Value} {ty : Ty} :
    (App.select cond onTrue onFalse).resultType = .ok ty ↔
      onTrue.ty.isValid = true ∧ cond.ty = .bool ∧ onFalse.ty = onTrue.ty ∧ onTrue.ty = ty := by
  rw [resultType_eq_ok_iff]
  have hbool : Ty.bool.isValid = true := rfl
  -- The operands are checked one by one, then the condition, then the arms.
  by_cases hc : cond.ty = .bool
  · by_cases heq : onFalse.ty = onTrue.ty
    · cases ht : onTrue.ty.isValid <;>
        simp [resultFault, badOperand?, operands, hbool, hc, ht, heq]
    · cases ht : onTrue.ty.isValid <;> cases hf : onFalse.ty.isValid <;>
        simp [resultFault, badOperand?, operands, hbool, hc, ht, hf, heq, Ne.symm heq]
  · cases hv : cond.ty.isValid <;> cases ht : onTrue.ty.isValid <;>
      cases hf : onFalse.ty.isValid <;> simp [resultFault, badOperand?, operands, hv, ht, hf, hc]

/-- The widths of a change of width that is allowed. -/
theorem ExtOp.resultType_eq_ok {op : ExtOp} {ty result : Ty} {target : Nat}
    (h : op.resultType ty target = .ok result) :
    ∃ width, ty = .bv width ∧ result = .bv target ∧ (Ty.bv target).isValid = true ∧
      op.allows width target = true := by
  cases ty with
  | bool => cases h
  | bv width =>
    cases hv : (Ty.bv target).isValid <;> cases ha : op.allows width target <;>
      simp only [resultType, hv, ha, Bool.not_false, Bool.not_true, if_true, if_false,
        Bool.false_eq_true, reduceCtorEq, Except.ok.injEq] at h
    exact ⟨width, rfl, h.symm, rfl, ha⟩

/-- A unary operator has a result on data that it takes. -/
theorem UnaryOp.apply_eq_some {op : UnaryOp} {ty result : Ty} {x : Datum}
    (h : op.resultType ty = .ok result) (hx : x.ty = ty) :
    ∃ d, op.apply x = some d ∧ d.ty = result := by
  subst hx
  cases op <;> cases x <;> simp only [resultType, Datum.ty, reduceCtorEq, Except.ok.injEq] at h <;>
    exact ⟨_, rfl, h⟩

/-- So has a binary one. -/
theorem BinaryOp.apply_eq_some {op : BinaryOp} {ty result : Ty} {x y : Datum}
    (h : op.resultType ty = .ok result) (hx : x.ty = ty) (hy : y.ty = ty) :
    ∃ d, op.apply x y = some d ∧ d.ty = result := by
  -- Each operator takes one of the two kinds of data, equality both.
  cases ty with
  | bool =>
    obtain ⟨a, rfl⟩ := Datum.exists_bool hx
    obtain ⟨b, rfl⟩ := Datum.exists_bool hy
    cases op <;> simp only [resultType, isBoolean, if_true, if_false, Bool.false_eq_true,
      reduceCtorEq, Except.ok.injEq] at h <;> exact ⟨_, rfl, h⟩
  | bv width =>
    obtain ⟨a, rfl⟩ := Datum.exists_bits hx
    obtain ⟨b, rfl⟩ := Datum.exists_bits hy
    rw [apply_bits]
    cases op <;> simp only [resultType, isBoolean, isComparison, if_true, if_false,
      Bool.false_eq_true, reduceCtorEq, Except.ok.injEq] at h <;> exact ⟨_, rfl, h⟩

/-- So has a change of width. -/
theorem ExtOp.apply_eq_some {op : ExtOp} {ty result : Ty} {target : Nat} {x : Datum}
    (h : op.resultType ty target = .ok result) (hx : x.ty = ty) :
    ∃ d, op.apply target x = some d ∧ d.ty = result := by
  obtain ⟨width, rfl, rfl, -, -⟩ := resultType_eq_ok h
  obtain ⟨a, rfl⟩ := Datum.exists_bits hx
  exact ⟨_, rfl, rfl⟩

/-- A well-typed application comes to a datum of its type, whatever data
of the right types its operands are. -/
theorem App.apply_eq_some {app : App} {ty : Ty} {args : List Datum} (h : app.resultType = .ok ty)
    (hargs : List.Forall₂ (fun v d => Datum.ty d = Value.ty v) app.operands args) :
    ∃ d, app.apply args = some d ∧ d.ty = ty := by
  cases app with
  | unary op arg =>
    obtain ⟨-, hop⟩ := resultType_unary.1 h
    obtain ⟨x, _, hx, hnil, rfl⟩ := List.forall₂_cons_left_iff.1 hargs
    obtain rfl := List.forall₂_nil_left_iff.1 hnil
    exact op.apply_eq_some hop hx
  | binary op left right =>
    obtain ⟨-, heq, hop⟩ := resultType_binary.1 h
    obtain ⟨x, _, hx, hrest, rfl⟩ := List.forall₂_cons_left_iff.1 hargs
    obtain ⟨y, _, hy, hnil, rfl⟩ := List.forall₂_cons_left_iff.1 hrest
    obtain rfl := List.forall₂_nil_left_iff.1 hnil
    exact op.apply_eq_some hop hx (hy.trans heq)
  | ext op arg target =>
    obtain ⟨-, hop⟩ := resultType_ext.1 h
    obtain ⟨x, _, hx, hnil, rfl⟩ := List.forall₂_cons_left_iff.1 hargs
    obtain rfl := List.forall₂_nil_left_iff.1 hnil
    exact op.apply_eq_some hop hx
  | select cond onTrue onFalse =>
    obtain ⟨-, hcond, heq, rfl⟩ := resultType_select.1 h
    obtain ⟨c, _, hc, hrest, rfl⟩ := List.forall₂_cons_left_iff.1 hargs
    obtain ⟨x, _, hx, hlast, rfl⟩ := List.forall₂_cons_left_iff.1 hrest
    obtain ⟨y, _, hy, hnil, rfl⟩ := List.forall₂_cons_left_iff.1 hlast
    obtain rfl := List.forall₂_nil_left_iff.1 hnil
    -- A condition of type bool is true or false, and each picks an arm.
    obtain ⟨b, rfl⟩ := Datum.exists_bool (hc.trans hcond)
    cases b with
    | false => exact ⟨y, rfl, hy.trans heq⟩
    | true => exact ⟨x, rfl, hx⟩

/-! ### Values -/

/-- A bitvector literal has no bit set above its width. -/
def Value.Masked : Value → Prop
  | .bv width w => w.keepLow width = w
  | _ => True

-- Only literals have something to decide.
instance : DecidablePred Value.Masked := fun v => by
  cases v <;> unfold Value.Masked <;> infer_instance

/-- What the symbols stand for. -/
structure Valuation where
  /-- Where each segment starts. -/
  base : SegmentId → Word
  /-- The datum of an entry register, a return address or an
  assignment. -/
  symbol : Value → Datum

namespace Valuation

/-- Every symbol stands for a datum of its own type. -/
def Typed (ρ : Valuation) : Prop :=
  ∀ v, (ρ.symbol v).ty = v.ty

/-- The valuation that puts every segment at `base` and has every symbol
stand for zero. -/
def zeros (base : Word) : Valuation where
  base _ := base
  symbol v := .ofTy v.ty

/-- The zeros have the right types. -/
theorem typed_zeros (base : Word) : (zeros base).Typed := fun v => Datum.ty_ofTy v.ty

/-- A datum for every value. -/
def denote (ρ : Valuation) : Value → Datum
  | .bool b => .bool b
  | .bv width w => .bits width (w.setWidth width)
  | .reloc segment offset width => .bits width ((ρ.base segment + offset).setWidth width)
  | v => ρ.symbol v

/-- The value may be this datum. -/
def Denotes (ρ : Valuation) : Value → Datum → Prop
  | .clobbered ty, d => d.ty = ty
  | v, d => d = ρ.denote v

/-- The application may come to this datum, with each operand free to be
any datum it may be. -/
def Yields (ρ : Valuation) (app : App) (d : Datum) : Prop :=
  ∃ args, List.Forall₂ ρ.Denotes app.operands args ∧ app.apply args = some d

/-- The datum of a value has the type of the value. -/
theorem ty_denote {ρ : Valuation} (hρ : ρ.Typed) (v : Value) : (ρ.denote v).ty = v.ty := by
  cases v with
  | bool | bv | reloc => rfl
  | initial | returnAddr | clobbered | assign => exact hρ _

/-- The datum that is picked is one that the value may be. -/
theorem denotes_denote {ρ : Valuation} (hρ : ρ.Typed) (v : Value) : ρ.Denotes v (ρ.denote v) := by
  cases v with
  | clobbered ty => exact hρ _
  | bool | bv | reloc | initial | returnAddr | assign => rfl

/-- A value that is not clobbered is one datum. -/
theorem denotes_iff {ρ : Valuation} {v : Value} (hv : v.isClobbered = false) (d : Datum) :
    ρ.Denotes v d ↔ d = ρ.denote v := by
  cases v with
  | clobbered ty => cases hv
  | bool | bv | reloc | initial | returnAddr | assign => exact Iff.rfl

/-- Whatever a value may be has its type. -/
theorem Denotes.ty_eq {ρ : Valuation} (hρ : ρ.Typed) {v : Value} {d : Datum}
    (h : ρ.Denotes v d) : d.ty = v.ty := by
  cases hv : v.isClobbered with
  | false => rw [(denotes_iff hv d).1 h, ty_denote hρ]
  | true =>
    cases v with
    | clobbered ty => exact h
    | bool | bv | reloc | initial | returnAddr | assign => cases hv

/-- Values that are not clobbered are one list of data. -/
theorem forall₂_denotes_iff {ρ : Valuation} {vs : List Value} {args : List Datum}
    (hvs : ∀ v ∈ vs, v.isClobbered = false) :
    List.Forall₂ ρ.Denotes vs args ↔ args = vs.map ρ.denote := by
  induction vs generalizing args with
  | nil => rw [List.forall₂_nil_left_iff, List.map_nil]
  | cons v rest ih =>
    have hv := hvs v List.mem_cons_self
    have hrest := fun u hu => hvs u (List.mem_cons_of_mem v hu)
    rw [List.forall₂_cons_left_iff, List.map_cons]
    constructor
    · rintro ⟨x, xs, hx, hxs, rfl⟩
      rw [(denotes_iff hv x).1 hx, (ih hrest).1 hxs]
    · rintro rfl
      exact ⟨_, _, (denotes_iff hv _).2 rfl, (ih hrest).2 rfl, rfl⟩

/-- Where no operand is clobbered the application comes to one datum. -/
theorem yields_iff {ρ : Valuation} {app : App} (hops : ∀ v ∈ app.operands, v.isClobbered = false)
    (d : Datum) : ρ.Yields app d ↔ app.apply (app.operands.map ρ.denote) = some d := by
  simp only [Yields, forall₂_denotes_iff hops, exists_eq_left]

/-- What a well-typed application comes to has its type. -/
theorem Yields.ty_eq {ρ : Valuation} (hρ : ρ.Typed) {app : App} {ty : Ty} {d : Datum}
    (hty : app.resultType = .ok ty) (h : ρ.Yields app d) : d.ty = ty := by
  obtain ⟨args, hargs, happly⟩ := h
  obtain ⟨d', happly', hd'⟩ := App.apply_eq_some hty (hargs.imp fun _ _ hv => hv.ty_eq hρ)
  rw [happly'] at happly
  cases happly
  exact hd'

/-- What a binary application may come to. -/
theorem yields_binary {ρ : Valuation} {op : BinaryOp} {left right : Value} {d : Datum} :
    ρ.Yields (.binary op left right) d ↔
      ∃ x y, ρ.Denotes left x ∧ ρ.Denotes right y ∧ op.apply x y = some d := by
  simp only [Yields, App.operands, List.forall₂_cons_left_iff, List.forall₂_nil_left_iff]
  constructor
  · rintro ⟨_, ⟨x, _, hx, ⟨y, _, hy, rfl, rfl⟩, rfl⟩, h⟩
    exact ⟨x, y, hx, hy, h⟩
  · rintro ⟨x, y, hx, hy, h⟩
    exact ⟨[x, y], ⟨x, [y], hx, ⟨y, [], hy, rfl, rfl⟩, rfl⟩, h⟩

/-- What a change of width may come to. -/
theorem yields_ext {ρ : Valuation} {op : ExtOp} {arg : Value} {target : Nat} {d : Datum} :
    ρ.Yields (.ext op arg target) d ↔ ∃ x, ρ.Denotes arg x ∧ op.apply target x = some d := by
  simp only [Yields, App.operands, List.forall₂_cons_left_iff, List.forall₂_nil_left_iff]
  constructor
  · rintro ⟨_, ⟨x, _, hx, rfl, rfl⟩, h⟩
    exact ⟨x, hx, h⟩
  · rintro ⟨x, hx, h⟩
    exact ⟨[x], ⟨x, [], hx, rfl, rfl⟩, h⟩

/-- What a choice may come to. -/
theorem yields_select {ρ : Valuation} {cond onTrue onFalse : Value} {d : Datum} :
    ρ.Yields (.select cond onTrue onFalse) d ↔
      ∃ c x y, ρ.Denotes cond c ∧ ρ.Denotes onTrue x ∧ ρ.Denotes onFalse y ∧
        c.choose x y = some d := by
  simp only [Yields, App.operands, List.forall₂_cons_left_iff, List.forall₂_nil_left_iff]
  constructor
  · rintro ⟨_, ⟨c, _, hc, ⟨x, _, hx, ⟨y, _, hy, rfl, rfl⟩, rfl⟩, rfl⟩, h⟩
    exact ⟨c, x, y, hc, hx, hy, h⟩
  · rintro ⟨c, x, y, hc, hx, hy, h⟩
    exact ⟨[c, x, y], ⟨c, [x, y], hc, ⟨x, [y], hx, ⟨y, [], hy, rfl, rfl⟩, rfl⟩, rfl⟩, h⟩

end Valuation

end FlowRecovery
