import FlowRecovery.Target

/-!
# `FlowRecovery.Target.X8664`: x86-64

A call pushes the address of the next instruction, so at function entry
the return address is in memory, where the stack pointer points.
-/

set_option autoImplicit false

namespace FlowRecovery.X8664

/-- The general-purpose registers, the instruction pointer and the
flags. -/
def registers : List Register :=
  (["rax", "rcx", "rdx", "rbx", "rsp", "rbp", "rsi", "rdi", "r8", "r9", "r10", "r11", "r12",
    "r13", "r14", "r15", "rip"].map .word64) ++
  (["cf", "pf", "af", "zf", "sf", "df", "of"].map .flag)

/-- The direction flag. -/
def directionFlag : Reg := 22

/-- A call preserves rbx, rsp, rbp and r12 to r15; coming back pops the
return address. -/
def machine : Machine where
  name := "x86_64"
  addrWidth := 64
  order := .little
  registers := registers
  ip := 16
  sp := 4
  calleeSaved := [3, 4, 5, 12, 13, 14, 15]
  callAdjust := 8

/-- At entry the direction flag is clear and the return address on top
of the stack. -/
def target : Target where
  machine := machine
  recognizers := .stacked machine
  entryValues := [(directionFlag, .bool false)]
  seeds := some [{ base := machine.sp, offset := 0 }]

end FlowRecovery.X8664
