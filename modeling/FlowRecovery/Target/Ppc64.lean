import FlowRecovery.Target

/-!
# `FlowRecovery.Target.Ppc64`: big-endian 64-bit PowerPC

Calls leave the return address in `lr`, and returns through it may be
conditional.
-/

set_option autoImplicit false

namespace FlowRecovery.Ppc64

/-- The general-purpose registers `r0` to `r31`. -/
def generalNames : List String :=
  (List.range 32).map fun n => s!"r{n}"

/-- The registers; only the condition register is narrower. -/
def registers : List Register :=
  (generalNames.map .word64) ++
  [.word64 "lr", .word64 "ctr", .word32 "cr", .word64 "xer", .word64 "pc"]

/-- The link register. -/
def lr : Reg := 32

/-- A call preserves the stack pointer, the table of contents and r14 to
r31. -/
def machine : Machine where
  name := "ppc64"
  addrWidth := 64
  order := .big
  registers := registers
  ip := 36
  sp := 1
  link := some lr
  calleeSaved := [1, 2] ++ List.range' 14 18

/-- At entry the link register holds the return address. -/
def target : Target where
  machine := machine
  recognizers := .linked machine
  entryValues := [(lr, machine.returnAddr)]
  chain := .withConditionalReturn

end FlowRecovery.Ppc64
