import FlowRecovery.Flow.Classify
import FlowRecovery.Stmt.Demand

/-!
# `FlowRecovery.Target`: a machine with its conventions

A target is a machine together with what is customary on it: what the
registers hold at function entry, what calls and returns look like,
which rules apply, which statements have effects, and three optional
extras. The recognizers that machines share stand here too.
-/

set_option autoImplicit false

namespace FlowRecovery

/-- The address after the last instruction in `stmts`. -/
def nextInstruction? (stmts : List Stmt) : Option Word :=
  stmts.reverse.findSome? fun
    | .instruction addr size => some (addr + BitVec.ofNat 64 size)
    | _ => none

/-- The last store in `stmts`: its position, address and value. -/
def lastStore? (stmts : List Stmt) : Option (Nat × Value × Value) :=
  stmts.zipIdx.reverse.findSome? fun
    | (.store addr value, i) => some (i, addr, value)
    | _ => none

namespace Recognizers

/-- Is `ret` the address after the block's last instruction, in
executable memory? -/
def comesBackTo (img : Image) (stmts : List Stmt) (ret : Word) : Bool :=
  nextInstruction? stmts == some ret && img.isExecutable ret

/-- A call that leaves the address of the next instruction in the link
register and goes elsewhere. -/
def linkCall (m : Machine) (img : Image) (stmts : List Stmt) (regs : RegFile) :
    Option (List Stmt × Word) := do
  let link ← m.link
  let ret ← (← regs.get? link).address? img
  guard (comesBackTo img stmts ret)
  let ip ← regs.get? m.ip
  guard (ip.address? img ≠ some ret)
  pure (stmts, ret)

/-- A call that pushes the address of the next instruction: the last
store puts it where the stack pointer ends up. The push itself is not
kept. -/
def stackCall (m : Machine) (img : Image) (stmts : List Stmt) (regs : RegFile) :
    Option (List Stmt × Word) := do
  let sp ← regs.get? m.sp
  let (i, addr, value) ← lastStore? stmts
  guard (addr = sp)
  let ret ← value.address? img
  guard (comesBackTo img stmts ret)
  pure (stmts.eraseIdx i, ret)

/-- A return: the instruction pointer ends up at the return address. -/
def ipReturn (m : Machine) (stmts : List Stmt) (regs : RegFile) (abs : Value → AbsValue) :
    Option (List Stmt) := do
  let ip ← regs.get? m.ip
  guard (abs ip = .returnAddr)
  pure stmts

/-- Calls through the link register. -/
def linked (m : Machine) : Recognizers where
  call := linkCall m
  ret := ipReturn m

/-- Calls that push the return address. -/
def stacked (m : Machine) : Recognizers where
  call := stackCall m
  ret := ipReturn m

end Recognizers

/-- A machine with its conventions. -/
structure Target where
  machine : Machine
  recognizers : Recognizers
  /-- What registers hold at entry, beside the instruction pointer. -/
  entryValues : List (Reg × Value) := []
  chain : Chain := .standard
  effects : Effects := .standard
  /-- The memory slots that hold the return address at entry. -/
  seeds : Option (List StackSlot) := none
  primEval : Option PrimEval := none
  /-- A last change to every classified block. -/
  amend : Option (FlowBlock → FlowBlock) := none

/-- The registers at a function's entry: symbolic, with the instruction
pointer at `entry` and the given values. Values that do not fit are left
out. -/
def Machine.entryState (m : Machine) (entry : Word) (values : List (Reg × Value)) : RegFile :=
  ((m.ip, m.addr entry) :: values).foldl (fun regs p => regs.setIfFits p.1 p.2)
    (RegFile.symbolic m)

/-- The registers at a function's entry. -/
def Target.entryState (t : Target) (entry : Word) : RegFile :=
  t.machine.entryState entry t.entryValues

/-- `v + delta` without a new statement: a literal is moved, and an
earlier move the other way is undone. Anything else is lost. -/
def Definitions.adjustStack (d : Definitions) (v : Value) (delta : Int) : Value :=
  if delta = 0 then v
  else
    match v, v.ty.width? with
    | _, none => .clobbered v.ty
    | .bv _ w, some width => .ofWord width (w + Word.ofSigned delta)
    | _, some width =>
      match d.app? v with
      | some (.binary .sub left right) =>
        if right = .ofWord width (Word.ofSigned delta) then left else .clobbered v.ty
      | some (.binary .add left right) =>
        if right = .ofWord width (-Word.ofSigned delta) then left else .clobbered v.ty
      | _ => .clobbered v.ty

/-- The value stays, a literal is moved, an earlier move is undone, or the
value is lost. -/
theorem Definitions.adjustStack_cases {d : Definitions} {v u : Value} {delta : Int}
    (h : d.adjustStack v delta = u) :
    delta = 0 ∧ u = v ∨
    (∃ width w, v = .bv width w ∧ u = .ofWord width (w + Word.ofSigned delta)) ∨
    (∃ width, v.ty = .bv width ∧
      (d.app? v = some (.binary .sub u (.ofWord width (Word.ofSigned delta))) ∨
        d.app? v = some (.binary .add u (.ofWord width (-Word.ofSigned delta))))) ∨
    u = .clobbered v.ty := by
  by_cases hdelta : delta = 0
  · exact .inl ⟨hdelta, h.symm.trans (if_pos hdelta)⟩
  · right
    unfold adjustStack at h
    rw [if_neg hdelta] at h
    split at h
    · exact .inr (.inr h.symm)
    · rename_i w width hwidth
      cases hwidth
      exact .inl ⟨_, w, rfl, h.symm⟩
    · rename_i v _ _ width _ hwidth
      have hty : v.ty = .bv width := Ty.width?_eq_some_iff.1 hwidth
      right
      split at h
      · rename_i left right happ
        split at h
        · rename_i hright
          exact .inl ⟨width, hty, .inl (hright ▸ h ▸ happ)⟩
        · exact .inr h.symm
      · rename_i left right happ
        split at h
        · rename_i hright
          exact .inl ⟨width, hty, .inr (hright ▸ h ▸ happ)⟩
        · exact .inr h.symm
      · exact .inr h.symm

/-- What a register holds once a call has come back to `returnAddr`:
the return address, the adjusted stack pointer, what the callee
preserves, or something clobbered. -/
def Machine.afterCall (m : Machine) (d : Definitions) (returnAddr : Word) (r : Reg) (v : Value) :
    Value :=
  if r = m.ip then m.addr returnAddr
  else if r = m.sp then d.adjustStack v m.callAdjust
  else if m.isCalleeSaved r || m.zero == some r then v
  else .clobbered v.ty

/-- The registers once a call has come back. A value that does not fit
its register leaves it as it was. -/
def Machine.postCallRegs (m : Machine) (d : Definitions) (regs : RegFile) (returnAddr : Word) :
    RegFile :=
  ⟨regs.values.mapIdx fun r v =>
    let next := m.afterCall d returnAddr r v
    if next.ty = v.ty then next else v⟩

end FlowRecovery
