/-!
# `FlowRecovery.Word`: 64-bit words read at a smaller width

Addresses, segment offsets and the contents of literals all live in one
64-bit container, `Word`. A value of `width` bits uses the low bits of
its container and keeps the rest clear; `keepLow` restores that after an
operation, and `toSigned` reads the same bits in two's complement.

Widths are plain numbers and may be out of range: width 0 keeps no bit,
and any width from 64 up keeps them all. The small lemmas say so bit by
bit (`getLsbD_mask`, `getLsbD_keepLow`).
-/

set_option autoImplicit false

namespace FlowRecovery

/-- The container of addresses, offsets and literal contents. -/
abbrev Word := BitVec 64

namespace Word

/-- The word whose low `width` bits are set. -/
def mask (width : Nat) : Word :=
  (BitVec.allOnes width).setWidth 64

/-- The low `width` bits of `w`, the others cleared. -/
def keepLow (width : Nat) (w : Word) : Word :=
  w &&& mask width

/-- The low `width` bits of `w` as a two's-complement number. No bits
read as 0, and no more than the 64 bits of the container are read. -/
def toSigned (width : Nat) (w : Word) : Int :=
  (w.setWidth (min width 64)).toInt

/-- The two's-complement word of `i`, modulo `2 ^ 64`. -/
def ofSigned (i : Int) : Word :=
  BitVec.ofInt 64 i

/-- `w + n`, stopping at the largest word. -/
def addSat (w : Word) (n : Nat) : Word :=
  BitVec.ofNat 64 (min (w.toNat + n) (BitVec.allOnes 64).toNat)

/-- `0x` and the lowercase hexadecimal digits, without leading zeros. -/
def hex (w : Word) : String :=
  "0x" ++ String.ofList (Nat.toDigits 16 w.toNat)

/-! ### Bits and numbers -/

/-- A mask has its low bits set, as far as the word goes. -/
theorem getLsbD_mask (width i : Nat) :
    (mask width).getLsbD i = (decide (i < 64) && decide (i < width)) := by
  simp [mask, BitVec.getLsbD_setWidth, BitVec.getLsbD_allOnes]

/-- Cutting clears the bits from the width on. -/
theorem getLsbD_keepLow (width : Nat) (w : Word) (i : Nat) :
    (keepLow width w).getLsbD i = (w.getLsbD i && decide (i < width)) := by
  by_cases h : i < 64
  · rw [keepLow, BitVec.getLsbD_and, getLsbD_mask]
    simp [h]
  · simp [BitVec.getLsbD_of_ge _ _ (Nat.le_of_not_lt h)]

/-- Cutting twice to the same width is cutting once. -/
@[simp] theorem keepLow_keepLow (width : Nat) (w : Word) :
    keepLow width (keepLow width w) = keepLow width w := by
  apply BitVec.eq_of_getLsbD_eq
  intro i hi
  simp [getLsbD_keepLow]

/-- Saturating addition, as numbers. -/
theorem toNat_addSat (w : Word) (n : Nat) :
    (addSat w n).toNat = min (w.toNat + n) 0xffffffffffffffff := by
  have hlast : (BitVec.allOnes 64).toNat = 0xffffffffffffffff := rfl
  rw [addSat, BitVec.toNat_ofNat, hlast]
  omega

end Word

end FlowRecovery
