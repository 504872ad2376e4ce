import FlowRecovery.Machine

/-!
# `FlowRecovery.Machine.RegFile`: what every register holds

A register file gives each register of a machine a value. It starts
symbolic, every register holding its own value at function entry, and
changes by `set`, which never changes a register's type. The lemmas say
what `set` accepts (`set_eq_ok_iff`) and what a file holds afterwards
(`get?_of_set`).
-/

set_option autoImplicit false

namespace FlowRecovery

/-- The value of every register at one point of a program. -/
structure RegFile where
  values : List Value
deriving DecidableEq, Repr

namespace RegFile

/-- The value that register `r` holds at function entry: its own symbol,
or literal zero for the register that always reads as zero. -/
def entryValue (m : Machine) (r : Reg) (ty : Ty) : Value :=
  match ty with
  | .bv width => if m.zero = some r then .ofWord width 0 else .initial r ty
  | .bool => .initial r ty

/-- The file at function entry. -/
def symbolic (m : Machine) : RegFile :=
  ⟨m.registers.mapIdx fun r reg => entryValue m r reg.ty⟩

/-- What a register holds. -/
def get? (regs : RegFile) (r : Reg) : Option Value :=
  regs.values[r]?

/-- How many registers there are. -/
def size (regs : RegFile) : Nat :=
  regs.values.length

/-- Replace a register's value by one of the same type. -/
def set (regs : RegFile) (r : Reg) (v : Value) : Except Violation RegFile :=
  match regs.get? r with
  | none => .error (.unknownRegister r)
  | some held =>
    if held.ty = v.ty then .ok ⟨regs.values.set r v⟩
    else .error (.registerType r held.ty v.ty)

/-- `set`, or no change where `set` refuses. -/
def setIfFits (regs : RegFile) (r : Reg) (v : Value) : RegFile :=
  match regs.set r v with
  | .ok regs => regs
  | .error _ => regs

/-- Set several registers in order, stopping at the first refusal. -/
def setAll (regs : RegFile) (pairs : List (Reg × Value)) : Except Violation RegFile :=
  pairs.foldlM (fun regs p => regs.set p.1 p.2) regs

/-! ### What the files hold -/

/-- Entry values have the types of their registers. -/
@[simp] theorem ty_entryValue (m : Machine) (r : Reg) (ty : Ty) : (entryValue m r ty).ty = ty := by
  unfold entryValue
  cases ty with
  | bool => rfl
  | bv width =>
    by_cases h : m.zero = some r
    · simp [h]
    · simp [h, Value.ty]

/-- What a register holds at entry. -/
theorem get?_symbolic (m : Machine) (r : Reg) :
    (symbolic m).get? r = m.registers[r]?.map fun reg => entryValue m r reg.ty := by
  simp [symbolic, get?]

/-- `set` accepts exactly the values of the type that the register
already has. -/
theorem set_eq_ok_iff {regs regs' : RegFile} {r : Reg} {v : Value} :
    regs.set r v = .ok regs' ↔
      (∃ held, regs.get? r = some held ∧ held.ty = v.ty) ∧ regs' = ⟨regs.values.set r v⟩ := by
  unfold set
  cases h : regs.get? r with
  | none => simp
  | some held =>
    by_cases ht : held.ty = v.ty
    · simp [ht, eq_comm]
    · simp [ht]

/-- After `set` the register holds the new value and the others hold
what they held. -/
theorem get?_of_set {regs regs' : RegFile} {r : Reg} {v : Value} (h : regs.set r v = .ok regs')
    (s : Reg) : regs'.get? s = if s = r then some v else regs.get? s := by
  obtain ⟨⟨held, hr, -⟩, rfl⟩ := set_eq_ok_iff.1 h
  have hlt : r < regs.values.length := (List.getElem?_eq_some_iff.1 hr).1
  simp only [get?, List.getElem?_set]
  by_cases hs : r = s
  · subst hs
    simp [hlt]
  · rw [if_neg hs, if_neg (Ne.symm hs)]

end RegFile

end FlowRecovery
