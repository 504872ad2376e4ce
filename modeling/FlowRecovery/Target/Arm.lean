import FlowRecovery.Target

/-!
# `FlowRecovery.Target.Arm`: 32-bit ARM

Calls leave the return address in `lr`. Returns may be conditional and
may go through an interworking branch, whose target primitive passes the
return address on.
-/

set_option autoImplicit false

namespace FlowRecovery.Arm

/-- The core registers and the condition flags. -/
def registers : List Register :=
  (["r0", "r1", "r2", "r3", "r4", "r5", "r6", "r7", "r8", "r9", "r10", "r11", "r12", "sp", "lr",
    "pc"].map .word32) ++
  (["n", "z", "c", "v"].map .flag)

/-- The link register. -/
def lr : Reg := 14

/-- A call preserves r4 to r11 and the stack pointer. -/
def machine : Machine where
  name := "arm"
  addrWidth := 32
  order := .little
  registers := registers
  ip := 15
  sp := 13
  link := some lr
  calleeSaved := [4, 5, 6, 7, 8, 9, 10, 11, 13]

/-- The primitive that computes the target of an interworking branch. -/
def interworkingTarget : String := "interworking_target"

/-- The interworking target of the return address is the return
address. -/
def evalInterworking : PrimEval := fun prim args =>
  if prim.name = interworkingTarget then args.head? else none

/-- At entry the link register holds the return address. -/
def target : Target where
  machine := machine
  recognizers := .linked machine
  entryValues := [(lr, machine.returnAddr)]
  chain := .withConditionalReturn
  primEval := some evalInterworking

end FlowRecovery.Arm
