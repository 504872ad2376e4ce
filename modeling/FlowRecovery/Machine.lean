import FlowRecovery.Violation

/-!
# `FlowRecovery.Machine`: the description of a target machine

A machine is a fixed record: the width of its addresses, its byte order,
its registers and the roles some of them play. Everything else that
depends on a width or a register asks this record.
-/

set_option autoImplicit false

namespace FlowRecovery

/-- A register's name and type; bitvector registers have 1 to 64 bits. -/
structure Register where
  name : String
  ty : Ty
  valid : ty.isValid = true := by decide
deriving DecidableEq, Repr

namespace Register

/-- A bitvector register, if the width is in range. -/
def ofWidth? (name : String) (width : Nat) : Option Register :=
  if h : (Ty.bv width).isValid = true then some { name, ty := .bv width, valid := h } else none

/-- A one-bit flag. -/
def flag (name : String) : Register :=
  { name, ty := .bool }

/-- A register of 64 bits. -/
def word64 (name : String) : Register :=
  { name, ty := .bv 64 }

/-- A register of 32 bits. -/
def word32 (name : String) : Register :=
  { name, ty := .bv 32 }

end Register

/-- The description of one target machine. -/
structure Machine where
  name : String
  addrWidth : Nat
  order : ByteOrder
  registers : List Register
  /-- The instruction pointer. -/
  ip : Reg
  /-- The stack pointer. -/
  sp : Reg
  /-- The register that holds the return address at function entry. -/
  link : Option Reg := none
  /-- The register that always reads as zero. -/
  zero : Option Reg := none
  /-- The registers that a call preserves. -/
  calleeSaved : List Reg := []
  /-- How far a call moves the stack pointer, as its caller sees it. -/
  callAdjust : Int := 0
deriving DecidableEq, Repr

namespace Machine

/-- The type of an address. -/
def addrTy (m : Machine) : Ty := .bv m.addrWidth

/-- Bytes per address, as an 8-bit number. -/
def addrBytes (m : Machine) : Nat := m.addrWidth / 8 % 256

/-- The literal address of this machine. -/
def addr (m : Machine) (a : Word) : Value := .ofWord m.addrWidth a

/-- The address that the function under study returns to. -/
def returnAddr (m : Machine) : Value := .returnAddr m.addrWidth

/-- The type of a register. -/
def regTy? (m : Machine) (r : Reg) : Option Ty :=
  m.registers[r]?.map Register.ty

/-- The register's name, `?` when there is no such register. -/
def regName (m : Machine) (r : Reg) : String :=
  (m.registers[r]?.map Register.name).getD "?"

/-- The first register of this name. -/
def regNamed? (m : Machine) (name : String) : Option Reg :=
  m.registers.findIdx? (·.name == name)

/-- Does a call preserve the register? -/
def isCalleeSaved (m : Machine) (r : Reg) : Bool :=
  m.calleeSaved.contains r

end Machine

end FlowRecovery
