import FlowRecovery.Target

/-!
# `FlowRecovery.Target.RiscV64`: 64-bit RISC-V

Calls leave the return address in `ra`, and register 0 always reads as
zero.
-/

set_option autoImplicit false

namespace FlowRecovery.RiscV64

/-- The integer registers by their names in the calling convention, and
the program counter. -/
def registers : List Register :=
  ["zero", "ra", "sp", "gp", "tp", "t0", "t1", "t2", "s0", "s1", "a0", "a1", "a2", "a3", "a4",
    "a5", "a6", "a7", "s2", "s3", "s4", "s5", "s6", "s7", "s8", "s9", "s10", "s11", "t3", "t4",
    "t5", "t6", "pc"].map .word64

/-- The register that calls leave the return address in. -/
def ra : Reg := 1

/-- A call preserves sp and s0 to s11. -/
def machine : Machine where
  name := "riscv64"
  addrWidth := 64
  order := .little
  registers := registers
  ip := 32
  sp := 2
  link := some ra
  zero := some 0
  calleeSaved := [2, 8, 9] ++ List.range' 18 10

/-- At entry the link register holds the return address. -/
def target : Target where
  machine := machine
  recognizers := .linked machine
  entryValues := [(ra, machine.returnAddr)]

end FlowRecovery.RiscV64
