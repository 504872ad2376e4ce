import FlowRecovery.Proofs.ByteMemory
import FlowRecovery.Proofs.Flow

/-!
# `FlowRecovery.Proofs.ReturnDomain`: what the return domain goes by

The return domain calls a value the return address for one of four
reasons (`ReturnDomain.Carries`): it is the return address of the entry,
it was loaded from a slot that is still trusted, or a mask or a primitive
passed it on. Stores only ever make the domain forget slots, and a list of
statements is gone through in order (`ofSeeds_ofStmts`).

A slot is forgotten if something else is stored exactly to it. A store
next to it that reaches into it is not noticed. `ReturnDomain.Guarded` says
that this does not matter: every store over the base of a slot that is
read again either puts a whole address into the slot or stays clear of
it.
-/

set_option autoImplicit false

namespace FlowRecovery

/-! ### Clearing low bits -/

namespace Datum

/-- No bit needs to be cleared. -/
theorem clearsTo_refl {width : Nat} (x : BitVec width) : (bits width x).ClearsTo (bits width x) :=
  ⟨width, x, BitVec.allOnes width, rfl, by simp, by simp⟩

/-- Bits that are cleared one after the other can be cleared at once. -/
theorem ClearsTo.trans {d e f : Datum} (h : d.ClearsTo e) (h' : e.ClearsTo f) : d.ClearsTo f := by
  obtain ⟨width, x, mask, rfl, rfl, hmask⟩ := h
  obtain ⟨width', x', mask', heq, rfl, hmask'⟩ := h'
  cases heq
  refine ⟨width, x, mask &&& mask', rfl, ?_, ?_⟩
  · rw [BitVec.and_assoc]
  · -- Both masks together still keep all but the low two bits.
    have hor : (~~~mask).toNat ||| (~~~mask').toNat < 2 ^ 2 :=
      Nat.or_lt_two_pow (by omega) (by omega)
    rw [BitVec.not_and, BitVec.toNat_or]
    omega

/-- The bits above the low two stay. -/
theorem ClearsTo.getLsbD_eq {width : Nat} {x y : BitVec width}
    (h : (bits width x).ClearsTo (bits width y)) {i : Nat} (hi : 2 ≤ i) :
    y.getLsbD i = x.getLsbD i := by
  obtain ⟨w, x', mask, hx, hy, hmask⟩ := h
  cases hx
  cases hy
  rw [BitVec.getLsbD_and]
  by_cases hlt : i < width
  · have hpow : 2 ^ 2 ≤ 2 ^ i := Nat.pow_le_pow_right (by decide) hi
    have hclear : (~~~mask).getLsbD i = false := Nat.testBit_lt_two_pow (by omega)
    rw [BitVec.getLsbD_not, decide_eq_true hlt, Bool.true_and, Bool.not_eq_false'] at hclear
    rw [hclear, Bool.and_true]
  · rw [BitVec.getLsbD_of_ge x i (by omega), Bool.false_and]

/-- The type stays. -/
theorem ClearsTo.ty_eq {d e : Datum} (h : d.ClearsTo e) : e.ty = d.ty := by
  obtain ⟨width, x, mask, rfl, rfl, -⟩ := h
  rfl

/-- Masking with a literal that keeps all but the low two bits. -/
theorem clearsTo_and {width : Nat} (x : BitVec width) {mask : BitVec width}
    (hmask : (~~~mask).toNat ≤ 3) : (bits width x).ClearsTo (bits width (x &&& mask)) :=
  ⟨width, x, mask, rfl, rfl, hmask⟩

end Datum

/-- The value is the return address of `width` bits, with at most its low
two bits cleared. -/
def Valuation.Returns (ρ : Valuation) (width : Nat) (v : Value) : Prop :=
  (ρ.denote (.returnAddr width)).ClearsTo (ρ.denote v)

/-- The address that the statement loads from. -/
def Stmt.loadAddr? : Stmt → Option Value
  | .assign _ _ (.load addr _) => some addr
  | _ => none

/-- The statement stores to an address over this base. -/
def Stmt.StoresOver (defs : Definitions) (base : Option Reg) (t : Stmt) : Prop :=
  ∃ form ∈ t.storeAddr?.bind defs.linear, form.base = base

instance (defs : Definitions) (base : Option Reg) : DecidablePred (Stmt.StoresOver defs base) :=
  fun t => inferInstanceAs (Decidable (∃ form ∈ t.storeAddr?.bind defs.linear, form.base = base))

/-- Only a store stores. -/
theorem Stmt.storesOver_iff {defs : Definitions} {base : Option Reg} {t : Stmt} :
    t.StoresOver defs base ↔ ∃ addr value form, t = .store addr value ∧
      defs.linear addr = some form ∧ form.base = base := by
  cases t <;> simp [StoresOver, storeAddr?]

namespace Linear

variable {ρ : Valuation} {width : Nat} {form slot : Linear} {a b : BitVec width}

/-- The bytes from `form` on, `bytes` of them, and the address at `slot`
have none in common. -/
def Apart (width : Nat) (form : Linear) (bytes : Nat) (slot : Linear) : Prop :=
  bytes ≤ (slot.offset.setWidth width - form.offset.setWidth width).toNat ∧
    width / 8 ≤ (form.offset.setWidth width - slot.offset.setWidth width).toNat

instance (width : Nat) (form : Linear) (bytes : Nat) (slot : Linear) :
    Decidable (form.Apart width bytes slot) :=
  inferInstanceAs (Decidable (_ ∧ _))

/-- Over the same base, addresses are as far apart as the offsets. -/
theorem Describes.sub_eq (hbase : form.base = slot.base)
    (ha : form.Describes ρ width (.bits width a)) (hb : slot.Describes ρ width (.bits width b)) :
    b - a = slot.offset.setWidth width - form.offset.setWidth width := by
  obtain ⟨base, offset⟩ := form
  obtain ⟨base', offset'⟩ := slot
  obtain rfl : base = base' := hbase
  cases base with
  | none =>
    cases ha
    cases hb
    rfl
  | some r =>
    obtain ⟨x, hx, ha⟩ := ha
    obtain ⟨y, hy, hb⟩ := hb
    cases hx.symm.trans hy
    cases ha
    cases hb
    -- The base cancels out.
    rw [BitVec.sub_eq_iff_eq_add, BitVec.add_comm x (offset.setWidth width), ← BitVec.add_assoc,
      BitVec.sub_add_cancel, BitVec.add_comm]

/-- Where a form points depends on the entry values only. -/
theorem Describes.congr {ρ' : Valuation} {d : Datum} (h : form.Describes ρ width d)
    (hρ : ∀ r, ρ'.denote (.initial r (.bv width)) = ρ.denote (.initial r (.bv width))) :
    form.Describes ρ' width d := by
  obtain ⟨base, offset⟩ := form
  cases base with
  | none => exact h
  | some r =>
    obtain ⟨x, hx, hd⟩ := h
    exact ⟨x, (hρ r).trans hx, hd⟩

end Linear

namespace ReturnDomain

variable {dom : ReturnDomain} {v : Value}

/-- A mask that clears low bits is a literal, and keeps all but the low two
bits at any valuation. -/
theorem denote_of_clearsLowBits {mask : Value} (h : clearsLowBits mask = true) {width : Nat}
    (hty : mask.ty = .bv width) (hwidth : width ≤ 64) (ρ : Valuation) :
    mask.isClobbered = false ∧ ∃ m, ρ.denote mask = .bits width m ∧ (~~~m).toNat ≤ 3 := by
  cases mask with
  | bv w bits =>
    obtain rfl : w = width := Ty.bv.inj hty
    -- The literal is checked as a word, of which only the low bits count.
    have hle : (Word.keepLow w (~~~bits)).toNat ≤ 3 := of_decide_eq_true h
    refine ⟨rfl, bits.setWidth w, rfl, ?_⟩
    rw [← BitVec.setWidth_not hwidth, BitVec.toNat_setWidth, ← Word.toNat_keepLow]
    exact hle
  | bool | reloc | initial | returnAddr | clobbered | assign => cases h

/-- The ways in which a value can be the return address, given what is
known of the operands of its definition. -/
inductive Carries (dom : ReturnDomain) (operand : Value → AbsValue) : Value → Prop
  | entry {width : Nat} : Carries dom operand (.returnAddr width)
  | load {id : AssignId} {ty : Ty} {addr : Value} {bytes : Nat} {slot : Linear}
      (hid : dom.defs.assigned.lookup id = some (.load addr bytes))
      (hform : dom.defs.linear addr = some slot) (hslot : slot ∈ dom.slots) :
      Carries dom operand (.assign id ty)
  | masked {id : AssignId} {ty : Ty} {left right : Value}
      (hid : dom.defs.assigned.lookup id = some (.app (.binary .and left right)))
      (h : clearsLowBits right = true ∧ operand left = .returnAddr ∨
        clearsLowBits left = true ∧ operand right = .returnAddr) :
      Carries dom operand (.assign id ty)
  | prim {id : AssignId} {ty : Ty} {p : Prim} {eval : PrimEval}
      (hid : dom.defs.assigned.lookup id = some (.prim p)) (heval : dom.primEval = some eval)
      (h : eval p (p.args.map operand) = some .returnAddr) :
      Carries dom operand (.assign id ty)

/-- If a value is called the return address, then for one of the four
reasons. -/
theorem carries_of_transferVia {operand : Value → AbsValue}
    (h : dom.transferVia operand v = .returnAddr) : dom.Carries operand v := by
  cases v with
  | returnAddr width => exact .entry
  | bool | bv | reloc | initial | clobbered => cases h
  | assign id ty =>
    have hrhs : dom.defs.rhs? (.assign id ty) = dom.defs.assigned.lookup id := rfl
    simp only [transferVia, hrhs] at h
    split at h
    · -- A load, from an address with a linear form.
      rename_i addr bytes hid
      split at h
      · rename_i hslot
        rw [isReturnSlot] at hslot
        cases hform : dom.defs.linear addr with
        | none =>
          rw [hform] at hslot
          cases hslot
        | some slot =>
          rw [hform] at hslot
          exact .load hid hform (List.contains_iff_mem.1 hslot)
      · cases h
    · -- A conjunction, with a mask on one side.
      rename_i left right hid
      split at h
      · rename_i hmask
        exact .masked hid (by simpa using hmask)
      · cases h
    · -- A primitive, for which an evaluator stands in.
      rename_i p hid
      split at h
      · rename_i eval heval
        refine .prim hid heval ?_
        cases hanswer : eval p (p.args.map operand) with
        | none =>
          rw [hanswer] at h
          cases h
        | some answer =>
          rw [hanswer] at h
          exact congrArg some h
      · cases h
    · cases h

/-- The same at a bounded depth. Operands are asked at a smaller one. -/
theorem carries_of_transferUpTo {depth : Nat} (h : dom.transferUpTo depth v = .returnAddr) :
    ∃ operand, dom.Carries operand v ∧
      ∀ u, operand u = .returnAddr →
        ∃ shallower < depth, dom.transferUpTo shallower u = .returnAddr := by
  cases depth with
  -- At depth zero nothing is known of the operands.
  | zero => exact ⟨_, carries_of_transferVia h, fun u hu => by cases hu⟩
  | succ depth => exact ⟨_, carries_of_transferVia h, fun u hu => ⟨depth, by omega, hu⟩⟩

/-- A clobbered value is never known to be the return address. -/
theorem isClobbered_of_transferUpTo {depth : Nat} (h : dom.transferUpTo depth v = .returnAddr) :
    v.isClobbered = false := by
  obtain ⟨operand, hcarries, -⟩ := carries_of_transferUpTo h
  cases hcarries <;> rfl

/-! ### Stores, one after the other -/

/-- The effect of one statement on what is known. -/
def step (dom : ReturnDomain) : Stmt → ReturnDomain
  | .store addr value => dom.store addr value
  | _ => dom

/-- A store changes the slots only, and adds none. -/
theorem store_eq (dom : ReturnDomain) (addr value : Value) :
    ∃ slots ⊆ dom.slots, dom.store addr value = { dom with slots } := by
  unfold store
  split
  · split
    · exact ⟨dom.slots, List.Subset.refl _, rfl⟩
    · exact ⟨_, List.filter_subset_self _, rfl⟩
  · exact ⟨dom.slots, List.Subset.refl _, rfl⟩

/-- The same for any statement. -/
theorem step_eq (dom : ReturnDomain) (t : Stmt) :
    ∃ slots ⊆ dom.slots, dom.step t = { dom with slots } := by
  cases t with
  | store addr value => exact dom.store_eq addr value
  | assign | arch | instruction | comment => exact ⟨dom.slots, List.Subset.refl _, rfl⟩

/-- Statements only ever make it forget slots. -/
theorem slots_step_subset (dom : ReturnDomain) (t : Stmt) : (dom.step t).slots ⊆ dom.slots := by
  obtain ⟨slots, hsub, heq⟩ := dom.step_eq t
  rw [heq]
  exact hsub

/-- Statements change no definitions. -/
@[simp]
theorem defs_step (dom : ReturnDomain) (t : Stmt) : (dom.step t).defs = dom.defs := by
  obtain ⟨slots, -, heq⟩ := dom.step_eq t
  rw [heq]

/-- Neither do they change what is known of primitives. -/
@[simp]
theorem primEval_step (dom : ReturnDomain) (t : Stmt) : (dom.step t).primEval = dom.primEval := by
  obtain ⟨slots, -, heq⟩ := dom.step_eq t
  rw [heq]

/-- A slot that is stored to and not forgotten now holds the return
address. -/
theorem transfer_of_mem_store {addr value : Value} {slot : Linear}
    (hform : dom.defs.linear addr = some slot) (h : slot ∈ (dom.store addr value).slots) :
    dom.transfer value = .returnAddr := by
  by_contra hother
  rw [store, hform] at h
  simp only [if_neg hother] at h
  have hne := (List.mem_filter.1 h).2
  simp at hne

/-- Recording statements and then going through the recorded stores is
going through the statements. Induction on the statements, with more
recorded before them. -/
theorem foldl_stores (dom : ReturnDomain) (defs : Definitions) (stmts : List Stmt) :
    (defs.record stmts).stores.foldl (fun dom s => dom.store s.1 s.2) dom =
      stmts.foldl step (defs.stores.foldl (fun dom s => dom.store s.1 s.2) dom) := by
  induction stmts generalizing defs with
  | nil => rfl
  | cons t rest ih =>
    show ((defs.recordStmt t).record rest).stores.foldl _ dom = _
    rw [ih, List.foldl_cons]
    cases t with
    | store addr value =>
      rw [Definitions.recordStmt, List.foldl_append]
      rfl
    | assign | arch | instruction | comment => rfl

/-- The domain of a list goes through its statements in order. -/
theorem ofSeeds_ofStmts (stmts : List Stmt) (seeds : List StackSlot) (width : Nat)
    (primEval : Option PrimEval) :
    ofSeeds (.ofStmts stmts) seeds width primEval =
      stmts.foldl step ⟨.ofStmts stmts, seedSlots seeds width, primEval⟩ :=
  foldl_stores _ {} stmts

/-! ### Which stores are not noticed -/

/-- A load reads the slot while it is still trusted. -/
def Rereads (slot : Linear) : ReturnDomain → List Stmt → Prop
  | _, [] => False
  | dom, t :: rest => t.loadAddr?.bind dom.defs.linear = some slot ∨
      slot ∈ (dom.step t).slots ∧ Rereads slot (dom.step t) rest

/-- Each statement is tried in turn. -/
instance decidableRereads (slot : Linear) :
    (dom : ReturnDomain) → (stmts : List Stmt) → Decidable (Rereads slot dom stmts)
  | _, [] => inferInstanceAs (Decidable False)
  | dom, t :: rest =>
    have := decidableRereads slot (dom.step t) rest
    inferInstanceAs (Decidable (t.loadAddr?.bind dom.defs.linear = some slot ∨
      slot ∈ (dom.step t).slots ∧ Rereads slot (dom.step t) rest))

/-- A store over the base of the slot puts a whole address into the slot
or stays clear of it. -/
def KeepsWhole (width : Nat) (dom : ReturnDomain) (addr value : Value) (slot : Linear) : Prop :=
  ∀ form ∈ dom.defs.linear addr, form.base = slot.base →
    form = slot ∧ value.ty = .bv width ∨ form.Apart width value.ty.byteCount slot

instance (width : Nat) (dom : ReturnDomain) (addr value : Value) (slot : Linear) :
    Decidable (KeepsWhole width dom addr value slot) :=
  inferInstanceAs (Decidable (∀ form ∈ dom.defs.linear addr, form.base = slot.base →
    form = slot ∧ value.ty = .bv width ∨ form.Apart width value.ty.byteCount slot))

/-- No store reaches into a slot that stays trusted and is read again. -/
def Guarded (width : Nat) : ReturnDomain → List Stmt → Prop
  | _, [] => True
  | dom, .store addr value :: rest =>
    (∀ slot ∈ (dom.store addr value).slots, Rereads slot (dom.store addr value) rest →
      KeepsWhole width dom addr value slot) ∧ Guarded width (dom.store addr value) rest
  | dom, _ :: rest => Guarded width dom rest

/-- All statements in one form: only a store has to be checked. -/
theorem guarded_cons {width : Nat} {t : Stmt} {rest : List Stmt} :
    Guarded width dom (t :: rest) ↔
      (∀ addr value, t = .store addr value → ∀ slot ∈ (dom.step t).slots,
        Rereads slot (dom.step t) rest → KeepsWhole width dom addr value slot) ∧
      Guarded width (dom.step t) rest := by
  cases t with
  | store addr value =>
    refine and_congr_left fun _ => ⟨fun h _ _ heq => ?_, fun h => h addr value rfl⟩
    cases heq
    exact h
  | assign | arch | instruction | comment =>
    exact (and_iff_right fun _ _ heq => by cases heq).symm

/-- Each store is checked in turn. -/
instance decidableGuarded (width : Nat) :
    (dom : ReturnDomain) → (stmts : List Stmt) → Decidable (Guarded width dom stmts)
  | _, [] => inferInstanceAs (Decidable True)
  | dom, .store addr value :: rest =>
    have := decidableGuarded width (dom.store addr value) rest
    inferInstanceAs (Decidable ((∀ slot ∈ (dom.store addr value).slots,
      Rereads slot (dom.store addr value) rest → KeepsWhole width dom addr value slot) ∧
        Guarded width (dom.store addr value) rest))
  | dom, .assign .. :: rest | dom, .arch .. :: rest | dom, .instruction .. :: rest
  | dom, .comment _ :: rest => decidableGuarded width dom rest

end ReturnDomain

end FlowRecovery
