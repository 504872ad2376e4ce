import FlowRecovery.Proofs.ReturnDomain
import FlowRecovery.Proofs.SingleAssignment
import FlowRecovery.Target.Arm

/-!
# `FlowRecovery.Proofs.ReturnSlots`: the return address where it is said to be

This file runs statements on a memory of bytes, from a state in which the
slots hold the return address, and shows what the answer of the return
domain is worth. As long as no store reaches into a slot that is read
again, a value that is said to be the return address is the return
address with at most its low two bits cleared (`transfer_returns`).
Without that, it need not be (`transfer_of_torn_slot`).

The proof goes through the run with two invariants. The slots that are
still trusted and will be read again hold the return address (`Holds`),
and so does the result of every load from a trusted slot so far. A value
can then be followed back through its definitions
(`returns_of_transferUpTo`). The answer about a stored value only depends
on what was assigned before the store, by single assignment.
-/

set_option autoImplicit false

namespace FlowRecovery

/-! ### Following a value back -/

/-- The primitive gives back its first argument, with at most the low two
bits cleared. -/
def Runtime.PassesOn (R : Runtime) (name : String) (width : Nat) : Prop :=
  ∀ (memory : R.Memory) (p : Prim) (data : List Datum) (x : Datum), p.name = name →
    p.ty = .bv width → data.head? = some x → x.ty = .bv width →
      x.ClearsTo (R.prim memory p data).1

/-- Nothing is known of primitives, or what is known of the interworking
primitive is true: it is applied to addresses only and passes them on. -/
def ReturnDomain.Interworks (R : Runtime) (width : Nat) (stmts : List Stmt)
    (primEval : Option PrimEval) : Prop :=
  primEval = none ∨ primEval = some Arm.evalInterworking ∧
    R.PassesOn Arm.interworkingTarget width ∧
    ∀ id ty p, .assign id ty (.prim p) ∈ stmts → p.name = Arm.interworkingTarget →
      ∀ x, p.args.head? = some x → x.ty = p.ty

/-- The evaluator answers for one primitive only, by its first argument. -/
theorem Arm.evalInterworking_eq_some {p : Prim} {operand : Value → AbsValue} {answer : AbsValue}
    (h : evalInterworking p (p.args.map operand) = some answer) :
    p.name = interworkingTarget ∧ ∃ x, p.args.head? = some x ∧ operand x = answer := by
  unfold evalInterworking at h
  split at h
  · rename_i hname
    rw [List.head?_map] at h
    exact ⟨hname, Option.map_eq_some_iff.1 h⟩
  · cases h

/-- A conjunction has the type of its operands. -/
theorem BinaryOp.ty_of_and {ty : Ty} {width : Nat}
    (h : BinaryOp.and.resultType ty = .ok (.bv width)) : ty = .bv width := by
  cases ty with
  | bool => cases h
  | bv w => exact Except.ok.inj h

namespace Runtime

variable {R : Runtime} {effects : Effects} {types : AssignId → Ty} {width : Nat}
  {stmts : List Stmt} {c c' : R.State}

/-- A well-typed single-assignment list and a run of it. -/
structure StraightRun (R : Runtime) (effects : Effects) (types : AssignId → Ty) (width : Nat)
    (stmts : List Stmt) (c c' : R.State) : Prop where
  single : SingleAssignment stmts
  typed : ∀ t ∈ stmts, t.WellTyped types width
  values : c.values.Typed
  runs : Runs (R.Steps effects) stmts c c'

/-- What is known after `pre`, and that it is true of the loads so far: a
load from a trusted slot has the return address as its result. -/
structure Tracks (ρ : Valuation) (width : Nat) (stmts : List Stmt) (slots : List Linear)
    (primEval : Option PrimEval) (pre : List Stmt) (dom : ReturnDomain) : Prop where
  defs : dom.defs = .ofStmts stmts
  eval : dom.primEval = primEval
  slots : dom.slots ⊆ slots
  loads : ∀ id addr bytes slot, .assign id (.bv width) (.load addr bytes) ∈ pre →
    dom.defs.linear addr = some slot → slot ∈ dom.slots → ρ.Returns width (.assign id (.bv width))

/-- One more statement: if it is a load from a slot that stays trusted,
its result has to be the return address. -/
theorem Tracks.step {ρ : Valuation} {slots : List Linear} {primEval : Option PrimEval}
    {pre : List Stmt} {dom : ReturnDomain} (hdom : Tracks ρ width stmts slots primEval pre dom)
    {t : Stmt}
    (hload : ∀ id addr bytes slot, t = .assign id (.bv width) (.load addr bytes) →
      dom.defs.linear addr = some slot → slot ∈ (dom.step t).slots →
        ρ.Returns width (.assign id (.bv width))) :
    Tracks ρ width stmts slots primEval (pre ++ [t]) (dom.step t) where
  defs := by rw [ReturnDomain.defs_step, hdom.defs]
  eval := by rw [ReturnDomain.primEval_step, hdom.eval]
  slots _ hs := hdom.slots (dom.slots_step_subset t hs)
  loads id addr bytes slot hmem hform hslot := by
    rw [ReturnDomain.defs_step] at hform
    rcases List.mem_append.1 hmem with hold | hnew
    · exact hdom.loads id addr bytes slot hold hform (dom.slots_step_subset t hslot)
    · exact hload id addr bytes slot (List.mem_singleton.1 hnew).symm hform hslot

namespace StraightRun

variable (h : R.StraightRun effects types width stmts c c')
  {slots : List Linear} {primEval : Option PrimEval} {pre rest : List Stmt} {dom : ReturnDomain}
include h

/-- The data at the end have their types. -/
theorem typed_end : c'.values.Typed := h.runs.typed h.typed h.values

/-- A value that refers to one of the statements of its list. -/
theorem exists_of_lookup {id : AssignId} {rhs : Rhs} (hfits : types id = .bv width)
    (hid : (Definitions.ofStmts stmts).assigned.lookup id = some rhs) :
    .assign id (.bv width) rhs ∈ stmts := by
  obtain ⟨ty, hmem⟩ := Definitions.mem_of_lookup hid
  obtain rfl : ty = .bv width := (h.typed _ hmem).2.1.trans hfits
  exact hmem

/-- It stands before the rest if the rest does not assign it. -/
theorem mem_of_unassigned {id : AssignId} {rhs : Rhs} (hsplit : stmts = pre ++ rest)
    (hfits : types id = .bv width) (hv : (Value.assign id (.bv width)).Unassigned rest)
    (hid : (Definitions.ofStmts stmts).assigned.lookup id = some rhs) :
    .assign id (.bv width) rhs ∈ pre := by
  have hmem := h.exists_of_lookup hfits hid
  rw [hsplit] at hmem
  exact (List.mem_append.1 hmem).resolve_right fun hrest => hv id rfl _ hrest rfl

/-- Both operands of a conjunction have its width. -/
theorem ty_of_and {id : AssignId} {left right : Value} (hfits : types id = .bv width)
    (hid : (Definitions.ofStmts stmts).assigned.lookup id = some (.app (.binary .and left right))) :
    left.ty = .bv width ∧ right.ty = .bv width ∧ width ≤ 64 := by
  have hmem := h.exists_of_lookup hfits hid
  obtain ⟨hvalid, hright, hop⟩ := App.resultType_binary.1 (h.typed _ hmem).2.2
  have hleft : left.ty = .bv width := BinaryOp.ty_of_and hop
  rw [hleft] at hvalid hright
  exact ⟨hleft, hright, ((Ty.isValid_bv width).1 hvalid).2⟩

/-- The data of a conjunction whose operands are not clobbered. -/
theorem denote_and {id : AssignId} {left right : Value} (hfits : types id = .bv width)
    (hid : (Definitions.ofStmts stmts).assigned.lookup id = some (.app (.binary .and left right)))
    (hl : left.isClobbered = false) (hr : right.isClobbered = false) :
    ∃ x y, c'.values.denote left = .bits width x ∧ c'.values.denote right = .bits width y ∧
      c'.values.denote (.assign id (.bv width)) = .bits width (x &&& y) := by
  obtain ⟨hleft, hright, -⟩ := h.ty_of_and hfits hid
  have hyields := h.runs.satisfies h.single h.typed h.values id _ hid
  rw [hfits] at hyields
  obtain ⟨x, y, hx, hy, happly⟩ := Valuation.yields_binary.1 hyields
  rw [Valuation.denotes_iff hl] at hx
  rw [Valuation.denotes_iff hr] at hy
  have htyped := h.typed_end
  obtain ⟨x, rfl⟩ := Datum.exists_bits (hx ▸ (Valuation.ty_denote htyped left).trans hleft)
  obtain ⟨y, rfl⟩ := Datum.exists_bits (hy ▸ (Valuation.ty_denote htyped right).trans hright)
  rw [BinaryOp.apply_bits] at happly
  exact ⟨x, y, hx.symm, hy.symm, (Option.some.inj happly).symm⟩

/-- A mask on either side of the return address clears its low bits. -/
theorem returns_of_masked {id : AssignId} {left right : Value} (hfits : types id = .bv width)
    (hid : (Definitions.ofStmts stmts).assigned.lookup id = some (.app (.binary .and left right)))
    (hsides : ReturnDomain.clearsLowBits right = true ∧
        left.isClobbered = false ∧ c'.values.Returns width left ∨
      ReturnDomain.clearsLowBits left = true ∧
        right.isClobbered = false ∧ c'.values.Returns width right) :
    c'.values.Returns width (.assign id (.bv width)) := by
  obtain ⟨hleft, hright, hwidth⟩ := h.ty_of_and hfits hid
  rcases hsides with ⟨hmask, hl, hreturns⟩ | ⟨hmask, hr, hreturns⟩
  · obtain ⟨hr, m, hm, hlow⟩ :=
      ReturnDomain.denote_of_clearsLowBits hmask hright hwidth c'.values
    obtain ⟨x, y, hx, hy, hand⟩ := h.denote_and hfits hid hl hr
    cases hy.symm.trans hm
    rw [Valuation.Returns, hx] at hreturns
    rw [Valuation.Returns, hand]
    exact hreturns.trans (Datum.clearsTo_and x hlow)
  · obtain ⟨hl, m, hm, hlow⟩ :=
      ReturnDomain.denote_of_clearsLowBits hmask hleft hwidth c'.values
    obtain ⟨x, y, hx, hy, hand⟩ := h.denote_and hfits hid hl hr
    cases hx.symm.trans hm
    rw [Valuation.Returns, hy] at hreturns
    rw [Valuation.Returns, hand, BitVec.and_comm]
    exact hreturns.trans (Datum.clearsTo_and y hlow)

/-- The first argument of a primitive, and what is made of it. -/
theorem denote_prim {id : AssignId} {p : Prim} (hfits : types id = .bv width)
    (hid : (Definitions.ofStmts stmts).assigned.lookup id = some (.prim p)) {x : Value}
    (hx : p.args.head? = some x) (hclobbered : x.isClobbered = false) :
    ∃ memory data, data.head? = some (c'.values.denote x) ∧
      c'.values.denote (.assign id (.bv width)) = (R.prim memory p data).1 := by
  have hmem := h.exists_of_lookup hfits hid
  obtain ⟨c₁, c₂, hstep, -, huses, hresult⟩ := h.runs.exists_step h.single h.typed h.values hmem
  refine ⟨c₁.memory, ?_⟩
  cases hstep with
  | @prim _ _ _ _ data hdata =>
    refine ⟨data, ?_, ?_⟩
    · have huse : c'.values.denote x = c₁.values.denote x :=
        huses x (List.mem_of_mem_head? hx)
      obtain ⟨args, hargs⟩ : ∃ args, p.args = x :: args := by
        cases hp : p.args with
        | nil =>
          rw [hp] at hx
          cases hx
        | cons y args =>
          rw [hp] at hx
          cases hx
          exact ⟨args, rfl⟩
      rw [hargs] at hdata
      obtain ⟨d, rest, hd, -, rfl⟩ := List.forall₂_cons_left_iff.1 hdata
      rw [huse, ← hd.eq_denote hclobbered]
      rfl
    · rw [hresult _ rfl, State.prim]
      split <;> exact Valuation.denote_assign _ _ _ _

/-- A primitive that passes on its first argument passes on the return
address. -/
theorem returns_of_prim {id : AssignId} {p : Prim} (hfits : types id = .bv width)
    (hid : (Definitions.ofStmts stmts).assigned.lookup id = some (.prim p))
    (hpasses : R.PassesOn p.name width) {x : Value} (hx : p.args.head? = some x)
    (hty : x.ty = .bv width) (hclobbered : x.isClobbered = false)
    (hreturns : c'.values.Returns width x) : c'.values.Returns width (.assign id (.bv width)) := by
  obtain ⟨memory, data, hdata, hresult⟩ := h.denote_prim hfits hid hx hclobbered
  have hpty : p.ty = .bv width := (h.typed _ (h.exists_of_lookup hfits hid)).2.2.symm
  rw [Valuation.Returns, hresult]
  refine hreturns.trans (hpasses memory p data _ rfl hpty hdata ?_)
  exact (Valuation.ty_denote h.typed_end x).trans hty

/-- A value that is said to be the return address is, if the loads that
the answer rests on have loaded it. Only what has been assigned so far
matters, as long as the value does not depend on the rest. -/
theorem returns_of_transferUpTo (hprim : ReturnDomain.Interworks R width stmts primEval)
    (hdom : Tracks c'.values width stmts slots primEval pre dom) (hsplit : stmts = pre ++ rest)
    {depth : Nat} {v : Value} (hfits : v.Fits types) (hty : v.ty = .bv width)
    (hv : v.Unassigned rest) (htransfer : dom.transferUpTo depth v = .returnAddr) :
    c'.values.Returns width v := by
  induction depth using Nat.strongRecOn generalizing v with
  | ind depth ih =>
    obtain ⟨operand, hcarries, hoperand⟩ := ReturnDomain.carries_of_transferUpTo htransfer
    have hsingle := h.single
    rw [hsplit] at hsingle
    -- An operand that carries the return address stands before the rest as well.
    have hback {id : AssignId} {rhs : Rhs} (hmem : .assign id (.bv width) rhs ∈ pre) {u : Value}
        (hu : u ∈ rhs.operands) (huty : u.ty = .bv width) (hcarried : operand u = .returnAddr) :
        u.isClobbered = false ∧ c'.values.Returns width u := by
      obtain ⟨shallower, hlt, hshallower⟩ := hoperand u hcarried
      have hmem' : Stmt.assign id (.bv width) rhs ∈ stmts := hsplit ▸ List.mem_append_left _ hmem
      exact ⟨ReturnDomain.isClobbered_of_transferUpTo hshallower,
        ih shallower hlt ((h.typed _ hmem').1 u hu) huty (hsingle.unassigned hmem hu) hshallower⟩
    have hassigned {id : AssignId} {ty : Ty} (heq : v = .assign id ty) :
        ty = .bv width ∧ types id = .bv width := by
      subst heq
      exact ⟨hty, Eq.trans (Eq.symm hfits) hty⟩
    cases hcarries with
    | @entry w =>
      obtain rfl : w = width := Ty.bv.inj hty
      obtain ⟨x, hx⟩ := Datum.exists_bits (Valuation.ty_denote h.typed_end (.returnAddr w))
      rw [Valuation.Returns, hx]
      exact Datum.clearsTo_refl x
    | load hid hform hslot =>
      obtain ⟨rfl, htypes⟩ := hassigned rfl
      have hmem := h.mem_of_unassigned hsplit htypes hv (hdom.defs ▸ hid)
      exact hdom.loads _ _ _ _ hmem hform hslot
    | masked hid hsides =>
      obtain ⟨rfl, htypes⟩ := hassigned rfl
      rw [hdom.defs] at hid
      have hmem := h.mem_of_unassigned hsplit htypes hv hid
      obtain ⟨hleft, hright, -⟩ := h.ty_of_and htypes hid
      refine h.returns_of_masked htypes hid (hsides.imp (fun hl => ⟨hl.1, ?_⟩) fun hr => ⟨hr.1, ?_⟩)
      -- The side that is no mask carries the return address.
      · exact hback hmem (by simp [Rhs.operands, App.operands]) hleft hl.2
      · exact hback hmem (by simp [Rhs.operands, App.operands]) hright hr.2
    | @prim id _ p eval hid hsome hanswer =>
      obtain ⟨rfl, htypes⟩ := hassigned rfl
      rw [hdom.defs] at hid
      rw [hdom.eval] at hsome
      rcases hprim with hnone | ⟨hinterworking, hpasses, hargs⟩
      · rw [hnone] at hsome
        cases hsome
      · rw [hinterworking] at hsome
        cases hsome
        obtain ⟨hname, x, hx, hcarried⟩ := Arm.evalInterworking_eq_some hanswer
        have hmem := h.mem_of_unassigned hsplit htypes hv hid
        have hmem' := h.exists_of_lookup htypes hid
        have hxty : x.ty = .bv width :=
          (hargs id _ p hmem' hname x hx).trans (h.typed _ hmem').2.2.symm
        obtain ⟨hclobbered, hreturns⟩ := hback hmem (List.mem_of_mem_head? hx) hxty hcarried
        exact h.returns_of_prim htypes hid (hname ▸ hpasses) hx hxty hclobbered hreturns

/-- An address with a linear form is where the form says. -/
theorem describes_addr {t : Stmt} (ht : t ∈ stmts) {addr : Value} (huse : addr ∈ t.uses)
    (hty : addr.ty = .bv width) {form : Linear}
    (hform : (Definitions.ofStmts stmts).linear addr = some form) :
    addr.isClobbered = false ∧ ∃ a, c'.values.denote addr = .bits width a ∧
      form.Describes c'.values width (.bits width a) := by
  obtain ⟨hclobbered, w, hw, hdescribes⟩ := Definitions.linear_sound
    (Definitions.typed_ofStmts h.typed) h.typed_end
    (h.runs.satisfies h.single h.typed h.values) ((h.typed t ht).1 addr huse) hform
  obtain rfl : w = width := Ty.bv.inj (hw.symm.trans hty)
  obtain ⟨a, ha⟩ := Datum.exists_bits ((Valuation.ty_denote h.typed_end addr).trans hty)
  exact ⟨hclobbered, a, ha, ha ▸ hdescribes⟩

end StraightRun

/-! ### Slots in memory -/

/-- The slot holds the return address, with at most its low two bits
cleared. -/
def Holds (R : Runtime) (ρ : Valuation) (width : Nat) (memory : R.Memory) (slot : Linear) : Prop :=
  ∀ a, slot.Describes ρ width (.bits width a) →
    (ρ.denote (.returnAddr width)).ClearsTo
      (.bits (width / 8 * 8) (R.load memory (.bits width a) (width / 8)))

namespace Bytewise

variable {order : ByteOrder} (B : R.Bytewise order width) {ρ : Valuation}
  {memory memory' : R.Memory} {form slot : Linear} {a : BitVec width}

/-- The bytes of the slots stay as they are, unless the statement is a
store over the base of the slot. -/
def Spares (ρ : Valuation) (defs : Definitions) (slots : List Linear) (t : Stmt)
    (memory memory' : R.Memory) : Prop :=
  ∀ slot ∈ slots, ¬ t.StoresOver defs slot.base →
    ∀ a, slot.Describes ρ width (.bits width a) → ∀ k < width / 8,
      B.peek memory' (a + BitVec.ofNat width k) = B.peek memory (a + BitVec.ofNat width k)

/-- Only the bytes of the slot matter. -/
theorem holds_congr
    (hsame : ∀ a, slot.Describes ρ width (.bits width a) → ∀ k < width / 8,
      B.peek memory' (a + BitVec.ofNat width k) = B.peek memory (a + BitVec.ofNat width k))
    (h : R.Holds ρ width memory slot) : R.Holds ρ width memory' slot := by
  intro a ha
  rw [B.load_congr (hsame a ha)]
  exact h a ha

include B in
/-- A store that stays clear of the slot. -/
theorem holds_store_of_apart (hbase : form.base = slot.base)
    (ha : form.Describes ρ width (.bits width a)) {size : Nat} {x : BitVec size}
    (hapart : form.Apart width (byteCount size) slot) (h : R.Holds ρ width memory slot) :
    R.Holds ρ width (R.store memory (.bits width a) (.bits size x)) slot := by
  refine B.holds_congr (fun b hb k hk => B.peek_store_of_le ?_) h
  -- A byte of the slot is as far from the store as the offsets say.
  have hdistance : b + BitVec.ofNat width k - a =
      slot.offset.setWidth width - form.offset.setWidth width + BitVec.ofNat width k := by
    rw [← Linear.Describes.sub_eq hbase ha hb, BitVec.sub_eq_iff_eq_add, BitVec.add_assoc,
      BitVec.add_comm (BitVec.ofNat width k) a, ← BitVec.add_assoc, BitVec.sub_add_cancel]
  rw [hdistance]
  refine le_toNat_add_of_apart hapart.1 ?_ hk
  rw [BitVec.neg_sub, BitVec.add_comm, BitVec.add_neg_eq_sub]
  exact hapart.2

include B in
/-- A store of the return address into the slot. -/
theorem holds_store_of_returns (hwidth : width = width / 8 * 8)
    (ha : slot.Describes ρ width (.bits width a)) {x : BitVec width}
    (hx : (ρ.denote (.returnAddr width)).ClearsTo (.bits width x)) :
    R.Holds ρ width (R.store memory (.bits width a) (.bits width x)) slot := by
  intro b hb
  have hsame := Linear.Describes.sub_eq rfl ha hb
  rw [BitVec.sub_self, BitVec.sub_eq_iff_eq_add, BitVec.zero_add] at hsame
  rw [hsame, B.load_store hwidth (fun k hk => toNat_ofNat_of_lt_div hk) x]
  exact hx

end Bytewise

namespace StraightRun

variable (h : R.StraightRun effects types width stmts c c') {order : ByteOrder}
  (B : R.Bytewise order width) {c₁ c₂ : R.State} {slot : Linear} {slots : List Linear}
  {primEval : Option PrimEval} {pre rest : List Stmt} {dom : ReturnDomain}
include h

/-- What is loaded from a slot that holds the return address. -/
theorem returns_of_load {id : AssignId} {addr : Value} {bytes : Nat}
    (hmem : .assign id (.bv width) (.load addr bytes) ∈ stmts)
    (hstep : R.Steps effects (.assign id (.bv width) (.load addr bytes)) c₁ c₂)
    (haddr : c'.values.denote addr = c₁.values.denote addr)
    (hresult : c'.values.denote (.assign id (.bv width)) =
      c₂.values.denote (.assign id (.bv width)))
    (hform : (Definitions.ofStmts stmts).linear addr = some slot)
    (hholds : R.Holds c'.values width c₁.memory slot) :
    c'.values.Returns width (.assign id (.bv width)) := by
  obtain ⟨-, -, hbytes, hty⟩ := h.typed _ hmem
  obtain ⟨hclobbered, a, ha, hdescribes⟩ :=
    h.describes_addr hmem List.mem_cons_self hty hform
  have hbytes : width = bytes * 8 := Ty.bv.inj hbytes
  have hloaded := hholds a hdescribes
  obtain rfl : bytes = width / 8 := by omega
  cases hstep with
  | load hread =>
    obtain rfl := hread.eq_denote hclobbered
    rw [← haddr, ha] at hresult
    rw [Valuation.Returns, hresult]
    exact (Valuation.denote_assign _ _ _ _).symm ▸ hloaded

/-- What is stored is the return address if the domain says so at that
point. -/
theorem returns_of_stored (hprim : ReturnDomain.Interworks R width stmts primEval)
    (hdom : Tracks c'.values width stmts slots primEval pre dom) {addr value : Value}
    (hsplit : stmts = pre ++ .store addr value :: rest)
    (hty : value.ty = .bv width) (htransfer : dom.transfer value = .returnAddr) :
    value.isClobbered = false ∧ c'.values.Returns width value := by
  have hmem : Stmt.store addr value ∈ stmts := by simp [hsplit]
  have hsplit' : stmts = (pre ++ [.store addr value]) ++ rest := by simp [hsplit]
  have hsingle := h.single
  rw [hsplit'] at hsingle
  have hdom' : Tracks c'.values width stmts slots primEval (pre ++ [.store addr value]) dom := by
    refine { hdom with loads := fun id addr bytes slot hload => ?_ }
    refine hdom.loads id addr bytes slot ((List.mem_append.1 hload).resolve_right fun hstore => ?_)
    cases List.mem_singleton.1 hstore
  refine ⟨ReturnDomain.isClobbered_of_transferUpTo htransfer, ?_⟩
  refine h.returns_of_transferUpTo hprim hdom' hsplit'
    ((h.typed _ hmem).1 value (by simp [Stmt.uses])) hty ?_ htransfer
  exact hsingle.unassigned (List.mem_append_right _ List.mem_cons_self) (by simp [Stmt.uses])

include B in
/-- A store over the base of a slot that is still trusted afterwards
leaves the return address in it. -/
theorem holds_store (hprim : ReturnDomain.Interworks R width stmts primEval)
    (hdom : Tracks c'.values width stmts slots primEval pre dom) {addr value : Value}
    (hsplit : stmts = pre ++ .store addr value :: rest) {form : Linear}
    (hform : dom.defs.linear addr = some form) (hbase : form.base = slot.base)
    {a : BitVec width} (ha : form.Describes c'.values width (.bits width a))
    {x : Datum} (hx : R.Reads c'.values value x)
    (hslot : slot ∈ (dom.store addr value).slots) (hwhole : dom.KeepsWhole width addr value slot)
    {memory : R.Memory} (hholds : R.Holds c'.values width memory slot) :
    R.Holds c'.values width (R.store memory (.bits width a) x) slot := by
  have hmem : Stmt.store addr value ∈ stmts := by simp [hsplit]
  have hxty : x.ty = value.ty := hx.denotes.ty_eq h.typed_end
  rcases hwhole form hform hbase with ⟨rfl, hvty⟩ | hapart
  · -- The slot is still trusted, so what is stored is the return address.
    obtain ⟨hclobbered, hreturns⟩ := h.returns_of_stored hprim hdom hsplit hvty
      (ReturnDomain.transfer_of_mem_store hform hslot)
    have hwidth : width = width / 8 * 8 :=
      Ty.bv.inj ((Valuation.ty_denote h.typed_end (.returnAddr width)).symm.trans
        (hholds a ha).ty_eq.symm)
    rw [Valuation.Returns, ← hx.eq_denote hclobbered] at hreturns
    obtain ⟨y, rfl⟩ := Datum.exists_bits (hxty.trans hvty)
    exact B.holds_store_of_returns hwidth ha hreturns
  · -- None of the stored bytes lies in the slot.
    cases hvty : value.ty with
    | bool => exact absurd hvty (h.typed _ hmem).2.2
    | bv size =>
      obtain ⟨y, rfl⟩ := Datum.exists_bits (hxty.trans hvty)
      rw [hvty] at hapart
      exact B.holds_store_of_apart hbase ha hapart hholds

/-- One statement leaves the return address in a slot that is still
trusted afterwards. -/
theorem holds_step (hprim : ReturnDomain.Interworks R width stmts primEval)
    (hdom : Tracks c'.values width stmts slots primEval pre dom) {t : Stmt}
    (hsplit : stmts = pre ++ t :: rest) (hstep : R.Steps effects t c₁ c₂)
    (huses : ∀ v ∈ t.uses, c'.values.denote v = c₁.values.denote v)
    (hspares : B.Spares c'.values (.ofStmts stmts) slots t c₁.memory c₂.memory)
    (hslot : slot ∈ (dom.step t).slots)
    (hwhole : ∀ addr value, t = .store addr value → dom.KeepsWhole width addr value slot)
    (hholds : R.Holds c'.values width c₁.memory slot) :
    R.Holds c'.values width c₂.memory slot := by
  by_cases hover : t.StoresOver (.ofStmts stmts) slot.base
  · -- The address has a linear form, so it is known where the store goes.
    obtain ⟨addr, value, form, rfl, hform, hbase⟩ := Stmt.storesOver_iff.1 hover
    have hmem : Stmt.store addr value ∈ stmts := by simp [hsplit]
    obtain ⟨hclobbered, a, ha, hdescribes⟩ :=
      h.describes_addr hmem List.mem_cons_self (h.typed _ hmem).2.1 hform
    rw [← hdom.defs] at hform
    cases hstep with
    | store hreadAddr hreadValue =>
      obtain rfl := hreadAddr.eq_denote hclobbered
      rw [← huses addr List.mem_cons_self, ha]
      exact h.holds_store B hprim hdom hsplit hform hbase hdescribes
        (hreadValue.congr (huses value (by simp [Stmt.uses]))) hslot (hwhole addr value rfl) hholds
  · exact B.holds_congr (hspares slot (hdom.slots (dom.slots_step_subset t hslot)) hover) hholds

/-- Every load from a slot that is trusted at the end has loaded the
return address. The induction is on what is left to run. -/
theorem tracks_end (hprim : ReturnDomain.Interworks R width stmts primEval)
    (hdom : Tracks c'.values width stmts slots primEval pre dom) (hsplit : stmts = pre ++ rest)
    (hruns : Runs (fun t c₁ c₂ => R.Steps effects t c₁ c₂ ∧
      B.Spares c'.values (.ofStmts stmts) slots t c₁.memory c₂.memory) rest c₁ c')
    (hguarded : ReturnDomain.Guarded width dom rest)
    (hholds : ∀ slot ∈ dom.slots, ReturnDomain.Rereads slot dom rest →
      R.Holds c'.values width c₁.memory slot) :
    Tracks c'.values width stmts slots primEval stmts (rest.foldl ReturnDomain.step dom) := by
  induction rest generalizing pre dom c₁ with
  | nil =>
    rw [List.append_nil] at hsplit
    rw [hsplit] at hdom ⊢
    exact hdom
  | cons t rest ih =>
    cases hruns with
    | @cons _ _ _ c₂ _ hboth hrest =>
      obtain ⟨hstep, hspares⟩ := hboth
      have hlater : Runs (R.Steps effects) rest c₂ c' := hrest.imp fun _ _ _ _ h => h.1
      have hall : Runs (R.Steps effects) (t :: rest) c₁ c' := .cons hstep hlater
      have hsingle : SingleAssignment (t :: rest) := (hsplit ▸ h.single).right
      have huses : ∀ v ∈ t.uses, c'.values.denote v = c₁.values.denote v :=
        fun v hv => hall.denote (hsingle.1 v hv)
      have hkept := dom.slots_step_subset t
      -- A load that reads the slot now is one of those for which it had to be whole.
      have hdom' : Tracks c'.values width stmts slots primEval (pre ++ [t]) (dom.step t) := by
        refine hdom.step fun id addr bytes slot ht hform hslot => ?_
        subst ht
        refine h.returns_of_load (by simp [hsplit]) hstep (huses addr List.mem_cons_self)
          (hlater.denote (hsingle.2.1 _ rfl)) (hdom.defs ▸ hform) ?_
        exact hholds slot (hkept hslot) (Or.inl hform)
      obtain ⟨hkeeps, hguarded⟩ := ReturnDomain.guarded_cons.1 hguarded
      refine ih hdom' (by simp [hsplit]) hrest hguarded fun slot hslot hreread => ?_
      refine h.holds_step B hprim hdom hsplit hstep huses hspares hslot ?_ ?_
      · exact fun addr value ht => hkeeps addr value ht slot hslot hreread
      · exact hholds slot (hkept hslot) (Or.inr ⟨hslot, hreread⟩)

end StraightRun

/-- A well-typed single-assignment list is run from a state in which the
slots hold the return address, and nothing but stores over the base of a
slot touches it. -/
structure Bytewise.ReturnRun {order : ByteOrder} (B : R.Bytewise order width) (effects : Effects)
    (types : AssignId → Ty) (seeds : List StackSlot) (stmts : List Stmt) (c c' : R.State) :
    Prop where
  single : SingleAssignment stmts
  typed : ∀ t ∈ stmts, t.WellTyped types width
  values : c.values.Typed
  seeded : ∀ slot ∈ ReturnDomain.seedSlots seeds width, ∀ a,
    slot.Describes c.values width (.bits width a) →
      Datum.bits (width / 8 * 8) (R.load c.memory (.bits width a) (width / 8)) =
        c.values.denote (.returnAddr width)
  runs : Runs (fun t c₁ c₂ => R.Steps effects t c₁ c₂ ∧
    B.Spares c.values (.ofStmts stmts) (ReturnDomain.seedSlots seeds width) t c₁.memory c₂.memory)
    stmts c c'

/-! ### Runs on flat memory -/

/-- On flat memory primitives pass their first argument on. -/
theorem flat_passesOn (order : ByteOrder) (width : Nat) (name : String) (size : Nat) :
    (flat order width).PassesOn name size := by
  intro memory p data x _ hty hhead hx
  obtain ⟨y, rfl⟩ := Datum.exists_bits hx
  simp only [flat, hhead]
  rw [dif_pos (hx.trans hty.symm)]
  exact Datum.clearsTo_refl y

/-- The slot that an unmoved register points to holds the return
address. -/
theorem seeded_flatEntry (order : ByteOrder) {width : Nat} (hwidth : width = width / 8 * 8)
    (ret : BitVec width) (reg : Reg) :
    ∀ slot ∈ ReturnDomain.seedSlots [⟨reg, 0⟩] width, ∀ a,
      slot.Describes (flatEntry order ret).values width (.bits width a) →
        Datum.bits (width / 8 * 8)
            ((flat order width).load (flatEntry order ret).memory (.bits width a) (width / 8)) =
          (flatEntry order ret).values.denote (.returnAddr width) := by
  intro slot hslot a ha
  obtain rfl := List.mem_singleton.1 hslot
  obtain ⟨x, hx, ha⟩ := ha
  have hx : x = 0 := by
    cases hx
    rfl
  have ha : a = 0 := by
    cases ha
    rw [hx, Word.setWidth_keepLow]
    simp [Word.ofSigned]
  rw [ha]
  refine ((flatBytewise order width).load_store hwidth
    (fun k hk => toNat_ofNat_of_lt_div hk) ret).trans ?_
  simp [Valuation.denote, flatEntry]

/-- On flat memory, a list whose stores all go over the bases of the slots
leaves them alone otherwise. -/
theorem Bytewise.ReturnRun.of_flat {order : ByteOrder} {width : Nat} {effects : Effects}
    {types : AssignId → Ty} {seeds : List StackSlot} {stmts : List Stmt}
    {c c' : (flat order width).State} (hsingle : SingleAssignment stmts)
    (htyped : ∀ t ∈ stmts, t.WellTyped types width) (hvalues : c.values.Typed)
    (hseeded : ∀ slot ∈ ReturnDomain.seedSlots seeds width, ∀ a,
      slot.Describes c.values width (.bits width a) →
        Datum.bits (width / 8 * 8) ((flat order width).load c.memory (.bits width a) (width / 8)) =
          c.values.denote (.returnAddr width))
    (hover : ∀ t ∈ stmts, t.storeAddr? = none ∨
      ∀ slot ∈ ReturnDomain.seedSlots seeds width, t.StoresOver (.ofStmts stmts) slot.base)
    (hruns : Runs ((flat order width).Steps effects) stmts c c') :
    (flatBytewise order width).ReturnRun effects types seeds stmts c c' where
  single := hsingle
  typed := htyped
  values := hvalues
  seeded := hseeded
  runs := hruns.imp fun t ht c₁ c₂ hstep => by
    refine ⟨hstep, fun slot hslot hnot a _ k _ => ?_⟩
    rcases hover t ht with hnone | hbase
    · rw [flat_memory_of_steps hstep hnone]
    · exact absurd (hbase slot hslot) hnot

/-- The return domain invents no return, as long as no store reaches into
a slot that stays trusted and is read again.

Let a well-typed single-assignment list be run from a state in which all
slots hold the return address. If the domain says of an address that it
is the return address, then after the run it is, with at most its low two
bits cleared. -/
theorem transfer_returns {order : ByteOrder} {B : R.Bytewise order width} {seeds : List StackSlot}
    (h : B.ReturnRun effects types seeds stmts c c') {primEval : Option PrimEval}
    (hprim : ReturnDomain.Interworks R width stmts primEval)
    (hguarded : ReturnDomain.Guarded width
      ⟨.ofStmts stmts, ReturnDomain.seedSlots seeds width, primEval⟩ stmts)
    {v : Value} (hfits : v.Fits types) (hty : v.ty = .bv width)
    (htransfer : (ReturnDomain.ofSeeds (.ofStmts stmts) seeds width primEval).transfer v =
      .returnAddr) :
    ∀ d, R.Reads c'.values v d → (c.values.denote (.returnAddr width)).ClearsTo d := by
  have hruns : Runs (R.Steps effects) stmts c c' := h.runs.imp fun _ _ _ _ h => h.1
  have hrun : R.StraightRun effects types width stmts c c' := ⟨h.single, h.typed, h.values, hruns⟩
  -- Entry values and the return address are the same before and after.
  have hentry (r : Reg) :
      c'.values.denote (.initial r (.bv width)) = c.values.denote (.initial r (.bv width)) :=
    hruns.denote fun _ hid => by cases hid
  have hreturn : c'.values.denote (.returnAddr width) = c.values.denote (.returnAddr width) :=
    hruns.denote fun _ hid => by cases hid
  -- So slots are where they were, and were spared in terms of the data at the end as well.
  have hspared : Runs (fun t c₁ c₂ => R.Steps effects t c₁ c₂ ∧
      B.Spares c'.values (.ofStmts stmts) (ReturnDomain.seedSlots seeds width) t c₁.memory
        c₂.memory) stmts c c' :=
    h.runs.imp fun _ _ _ _ hboth => ⟨hboth.1, fun slot hslot hbase a ha =>
      hboth.2 slot hslot hbase a (ha.congr fun r => (hentry r).symm)⟩
  have hholds : ∀ slot ∈ ReturnDomain.seedSlots seeds width,
      R.Holds c'.values width c.memory slot := by
    intro slot hslot a ha
    rw [h.seeded slot hslot a (ha.congr fun r => (hentry r).symm), hreturn]
    obtain ⟨x, hx⟩ := Datum.exists_bits (Valuation.ty_denote h.values (.returnAddr width))
    rw [hx]
    exact Datum.clearsTo_refl x
  have hdom : Tracks c'.values width stmts (ReturnDomain.seedSlots seeds width) primEval []
      ⟨.ofStmts stmts, ReturnDomain.seedSlots seeds width, primEval⟩ :=
    ⟨rfl, rfl, List.Subset.refl _, fun _ _ _ _ hmem => absurd hmem List.not_mem_nil⟩
  have hend := hrun.tracks_end B hprim hdom rfl hspared hguarded
    fun slot hslot _ => hholds slot hslot
  rw [← ReturnDomain.ofSeeds_ofStmts] at hend
  have hreturns := hrun.returns_of_transferUpTo hprim hend (List.append_nil stmts).symm hfits hty
    (fun _ _ _ ht => absurd ht List.not_mem_nil) htransfer
  intro d hd
  rw [hd.eq_denote (ReturnDomain.isClobbered_of_transferUpTo htransfer), ← hreturn]
  exact hreturns

/-- The return address is loaded, passed through an interworking
primitive and a mask, stored back and loaded again. A store to the word
below the slot is in between. -/
def reloading : List Stmt :=
  [.assign 0 (.bv 32) (.app (.binary .sub (.initial 13 (.bv 32)) (.bv 32 4))),
    .store (.assign 0 (.bv 32)) (.bv 32 7),
    .assign 1 (.bv 32) (.load (.initial 13 (.bv 32)) 4),
    .assign 2 (.bv 32) (.prim ⟨Arm.interworkingTarget, [.assign 1 (.bv 32)], .bv 32, true⟩),
    .assign 3 (.bv 32) (.app (.binary .and (.assign 2 (.bv 32)) (.bv 32 0xfffffffe))),
    .store (.initial 13 (.bv 32)) (.assign 3 (.bv 32)),
    .assign 4 (.bv 32) (.load (.initial 13 (.bv 32)) 4)]

/-- All hypotheses hold of this list, from a state with an odd return
address. -/
theorem transfer_returns_reloading :
    ReturnDomain.Guarded 32 ⟨.ofStmts reloading, ReturnDomain.seedSlots [⟨13, 0⟩] 32,
        some Arm.evalInterworking⟩ reloading ∧
      (ReturnDomain.ofSeeds (.ofStmts reloading) [⟨13, 0⟩] 32 (some Arm.evalInterworking)).transfer
        (.assign 4 (.bv 32)) = .returnAddr ∧
      ∃ c', (flatBytewise .little 32).ReturnRun .standard (fun _ => .bv 32) [⟨13, 0⟩] reloading
          (flatEntry .little 0x8001) c' ∧
        ∀ d, (flat .little 32).Reads c'.values (.assign 4 (.bv 32)) d →
          (Datum.bits 32 0x8001).ClearsTo d := by
  have hguarded : ReturnDomain.Guarded 32 ⟨.ofStmts reloading,
      ReturnDomain.seedSlots [⟨13, 0⟩] 32, some Arm.evalInterworking⟩ reloading := by decide
  have htransfer : (ReturnDomain.ofSeeds (.ofStmts reloading) [⟨13, 0⟩] 32
      (some Arm.evalInterworking)).transfer (.assign 4 (.bv 32)) = .returnAddr := by decide
  obtain ⟨c', hruns⟩ := exists_runs (R := flat .little 32) .standard reloading
    (flatEntry .little 0x8001)
  have hrun : (flatBytewise .little 32).ReturnRun .standard (fun _ => .bv 32) [⟨13, 0⟩] reloading
      (flatEntry .little 0x8001) c' :=
    .of_flat (by decide) (by decide) (typed_flatEntry _ _)
      (seeded_flatEntry .little (by decide) _ 13) (by decide) hruns
  have hprim : ReturnDomain.Interworks (flat .little 32) 32 reloading
      (some Arm.evalInterworking) := by
    refine .inr ⟨rfl, flat_passesOn _ _ _ _, fun id ty p hmem _ x hx => ?_⟩
    simp only [reloading, List.mem_cons, List.not_mem_nil, or_false, reduceCtorEq, false_or,
      Stmt.assign.injEq, Rhs.prim.injEq, and_false] at hmem
    obtain ⟨-, -, rfl⟩ := hmem
    cases hx
    rfl
  exact ⟨hguarded, htransfer, c', hrun, transfer_returns hrun hprim hguarded rfl rfl htransfer⟩

/-- The upper half of the slot is overwritten before it is loaded. -/
def tearing : List Stmt :=
  [.assign 0 (.bv 64) (.app (.binary .add (.initial 4 (.bv 64)) (.bv 64 4))),
    .store (.assign 0 (.bv 64)) (.bv 32 0),
    .assign 1 (.bv 64) (.load (.initial 4 (.bv 64)) 8)]

/-- The domain still trusts a slot of which one half was overwritten. -/
theorem transfer_of_torn_slot :
    (ReturnDomain.ofSeeds (.ofStmts tearing) [⟨4, 0⟩] 64 none).transfer (.assign 1 (.bv 64)) =
        .returnAddr ∧
      ∃ c', (flatBytewise .little 64).ReturnRun .standard (fun _ => .bv 64) [⟨4, 0⟩] tearing
          (flatEntry .little (BitVec.allOnes 64)) c' ∧
        ¬ (Datum.bits 64 (BitVec.allOnes 64)).ClearsTo (c'.values.denote (.assign 1 (.bv 64))) := by
  refine ⟨by decide, _, .of_flat (by decide) (by decide) (typed_flatEntry _ _)
    (seeded_flatEntry .little (by decide) _ 4) (by decide)
    (.cons (.app (.binary rfl rfl)) (.cons (.store rfl rfl) (.cons (.load rfl) .nil))), ?_⟩
  intro hclears
  -- The lowest bit of the overwritten half.
  have hbit : ((flat .little 64).load ((flat .little 64).store
      (flatEntry .little (BitVec.allOnes 64)).memory (.bits 64 4) (.bits 32 0))
        (.bits 64 0) 8).getLsbD 32 = (BitVec.allOnes 64).getLsbD 32 :=
    hclears.getLsbD_eq (by decide)
  rw [(flatBytewise .little 64).load _ _ _ _ (by decide)] at hbit
  exact absurd hbit (by decide)

end Runtime

end FlowRecovery
