import FlowRecovery.Proofs.Registers
import FlowRecovery.Proofs.Typing

/-!
# `FlowRecovery.Proofs.AfterCall`: what a call leaves behind

A call that has come back has moved the stack pointer, and no statement
says so. The new value has to be found among those there are: a literal is
moved, and an earlier move the other way is undone. Whatever is found is the
old value moved by the distance (`Definitions.moves_adjustStack`), and
nothing is said of anything else.

A push is such an earlier move. Evaluation may have folded it, found it in
the table of results or named it. In each of the cases the value from before
the push comes back, not another one that happens to be equal
(`adjustStack_of_push`). For this the table has to be right about the
statements of the open block (`Builder.Reachable.memoRecorded`).
-/

set_option autoImplicit false

namespace FlowRecovery

/-! ### Moved data -/

/-- The datum moved by `delta`, wrapping at its width. -/
def Datum.plus (delta : Int) : Datum → Datum
  | .bool b => .bool b
  | .bits width x => .bits width (.ofInt width (x.toNat + delta))

/-- On bits the move is an addition at the width. -/
theorem Datum.plus_bits {width : Nat} (delta : Int) (x : BitVec width) :
    (bits width x).plus delta = bits width (x + .ofInt width delta) := by
  rw [plus, BitVec.ofInt_add, BitVec.ofInt_natCast, BitVec.ofNat_toNat, BitVec.setWidth_eq]

/-- A move by nothing leaves everything as it is. -/
theorem Datum.plus_zero (d : Datum) : d.plus 0 = d := by
  cases d with
  | bool b => rfl
  | bits width x => simp [plus_bits]

/-- A negative distance is the negated word. -/
theorem Word.ofSigned_neg (i : Int) : Word.ofSigned (-i) = -Word.ofSigned i :=
  BitVec.ofInt_neg

/-- Nothing but its type is known of a clobbered value. -/
theorem Value.eq_clobbered {v : Value} (h : v.isClobbered = true) : v = .clobbered v.ty := by
  cases v with
  | clobbered ty => rfl
  | bool | bv | reloc | initial | returnAddr | assign => cases h

namespace Definitions

variable {defs : Definitions} {types : AssignId → Ty}

/-- The second value is the first moved by `delta`, whatever that is, or
nothing is said of it but its type. -/
def Moves (defs : Definitions) (types : AssignId → Ty) (delta : Int) (v u : Value) : Prop :=
  u = .clobbered v.ty ∨
    u.ty = v.ty ∧ ∀ ρ : Valuation, ρ.Typed → ρ.Satisfies types defs →
      ∀ d e, ρ.Denotes v d → ρ.Denotes u e → e = d.plus delta

/-- A move keeps the type. -/
theorem Moves.ty_eq {delta : Int} {v u : Value} (h : defs.Moves types delta v u) :
    u.ty = v.ty := by
  obtain rfl | ⟨hty, -⟩ := h
  · rfl
  · exact hty

/-- What is clobbered is not moved to anything definite. -/
theorem Moves.of_known {delta : Int} {v u : Value} (hty : u.ty = v.ty)
    (h : u.isClobbered = false → ∀ ρ : Valuation, ρ.Typed → ρ.Satisfies types defs →
      ∀ d e, ρ.Denotes v d → ρ.Denotes u e → e = d.plus delta) : defs.Moves types delta v u := by
  cases hu : u.isClobbered with
  | false => exact .inr ⟨hty, h hu⟩
  | true => exact .inl (hty ▸ Value.eq_clobbered hu)

/-- The value that a sum or a difference started from is the result moved
back. -/
theorem moves_of_app? (hdefs : defs.Typed types) {v left : Value} (hv : v.Fits types)
    {width : Nat} (hty : v.ty = .bv width) {op : BinaryOp} (hop : op = .add ∨ op = .sub)
    {w : Word} (happ : defs.app? v = some (.binary op left (.ofWord width w))) {delta : Int}
    (hback : ∀ x y : BitVec width, op.onBits x (w.setWidth width) = some (.bits width y) →
      x = y + .ofInt width delta) : defs.Moves types delta v left := by
  -- The recorded application is well typed, so its first operand is as wide as its
  -- result.
  obtain ⟨hresult, -⟩ := hdefs.of_app? hv happ
  obtain ⟨-, -, hresult⟩ := App.resultType_binary.1 hresult
  rw [hty] at hresult
  refine .of_known ((ty_of_sum hop hresult).trans hty.symm) fun hleft ρ hρ hsat d e hd he => ?_
  obtain ⟨-, -, -, x, y, hx, hy, hsum⟩ := operands_of_sum hdefs hρ hsat hv hty hop happ hleft rfl
  obtain ⟨-, -, hclobbered, -⟩ := hdefs.of_app? hv happ
  -- Neither value is clobbered, so each is one bitvector.
  obtain ⟨z, hz⟩ := Datum.exists_bits ((ρ.ty_denote hρ v).trans hty)
  rw [(Valuation.denotes_iff hleft e).1 he, (Valuation.denotes_iff hclobbered d).1 hd, hx, hz,
    Datum.plus_bits]
  rw [Valuation.denote_ofWord] at hy
  cases hy
  rw [hz] at hsum
  exact congrArg _ (hback x z hsum)

/-- An adjusted stack pointer has been moved by the distance, or is lost. -/
theorem moves_adjustStack (hdefs : defs.Typed types) {v : Value} (hv : v.Fits types)
    (hvalid : v.ty.isValid = true) (delta : Int) :
    defs.Moves types delta v (defs.adjustStack v delta) := by
  obtain ⟨rfl, hstays⟩ | ⟨width, w, rfl, hmoved⟩ | ⟨width, hty, happ | happ⟩ | hlost :=
    adjustStack_cases (rfl : defs.adjustStack v delta = _)
  · -- The distance is zero, and the value stays.
    rw [hstays]
    refine .of_known rfl fun hclobbered ρ _ _ d e hd he => ?_
    rw [(Valuation.denotes_iff hclobbered d).1 hd, (Valuation.denotes_iff hclobbered e).1 he,
      Datum.plus_zero]
  · -- A literal is moved at once.
    rw [hmoved]
    refine .inr ⟨rfl, fun ρ _ _ d e hd he => ?_⟩
    have hle : width ≤ 64 := ((Ty.isValid_bv width).1 hvalid).2
    rw [show d = _ from hd, show e = _ from he, Valuation.denote_ofWord, Valuation.denote_bv,
      Datum.plus_bits, BitVec.setWidth_add _ _ hle, Word.setWidth_ofSigned hle]
  · -- The value is a difference, and the operand that it started from is the result
    -- moved up.
    have hle : width ≤ 64 := ((Ty.isValid_bv width).1 (hty ▸ hvalid)).2
    refine moves_of_app? hdefs hv hty (.inr rfl) happ fun x y hsub => ?_
    cases hsub
    rw [Word.setWidth_ofSigned hle, BitVec.sub_add_cancel]
  · -- The value is a sum with the negated distance, which is the same difference.
    have hle : width ≤ 64 := ((Ty.isValid_bv width).1 (hty ▸ hvalid)).2
    refine moves_of_app? hdefs hv hty (.inl rfl) happ fun x y hadd => ?_
    cases hadd
    rw [← Word.ofSigned_neg, Word.setWidth_ofSigned hle, BitVec.ofInt_neg, ← BitVec.sub_eq_add_neg,
      BitVec.sub_add_cancel]
  · exact .inl hlost

end Definitions

/-! ### Pushes -/

/-- The operator and the literal of a move by `delta` downwards. -/
inductive Push (delta : Int) : BinaryOp → Word → Prop
  | sub : Push delta .sub (Word.ofSigned delta)
  | add : Push delta .add (Word.ofSigned (-delta))

namespace Push

variable {delta : Int} {op : BinaryOp} {w : Word} {width : Nat}

/-- Such a literal is zero only if the move is a whole number of turns. -/
theorem keepLow_ne_zero (h : Push delta op w) (hle : width ≤ 64)
    (hdelta : ¬ ((2 ^ width : Nat) : Int) ∣ delta) : w.keepLow width ≠ 0 := by
  have hzero {i : Int} (hi : ¬ ((2 ^ width : Nat) : Int) ∣ i) :
      (Word.ofSigned i).keepLow width ≠ 0 := by
    intro hkeep
    -- A zero literal is a zero bitvector, and so a multiple of `2 ^ width`.
    have hbits : (BitVec.ofInt width i).toNat = 0 := by
      rw [← Word.setWidth_ofSigned hle, ← Word.setWidth_keepLow, hkeep]
      simp
    rw [BitVec.toNat_ofInt] at hbits
    have hpos : (0 : Int) < ((2 ^ width : Nat) : Int) := Int.natCast_pos.2 (Nat.two_pow_pos width)
    have hnonneg := Int.emod_nonneg i (Int.ne_of_gt hpos)
    exact hi (Int.dvd_of_emod_eq_zero (by omega))
  cases h with
  | sub => exact hzero hdelta
  | add => exact hzero fun hdvd => hdelta (Int.dvd_neg.1 hdvd)

/-- A push is computed on a literal only. -/
theorem fold_eq_none (h : Push delta op w) {v : Value} (hty : v.ty = .bv width)
    (hzero : w.keepLow width ≠ 0) (hbv : ∀ n a, v ≠ .bv n a)
    (hreloc : ∀ segment offset n, v ≠ .reloc segment offset n) :
    (App.binary op v (.ofWord width w)).fold = none := by
  cases v with
  | bool => cases hty
  | bv n a => exact absurd rfl (hbv n a)
  | reloc segment offset n => exact absurd rfl (hreloc segment offset n)
  | initial | returnAddr | clobbered | assign =>
    cases h <;>
      simpa [App.fold, BinaryOp.fold, BinaryOp.simplify, Value.ofWord, Value.surelyEqual,
        Value.relocate, Value.isZero] using hzero

/-- On a literal, moving back up gives the literal. -/
theorem fold_literal (h : Push delta op w) {a : Word} (ha : a.keepLow width = a)
    (hvalid : (Ty.bv width).isValid = true) {u : Value}
    (hfold : (App.binary op (.bv width a) (.ofWord width w)).fold = some u)
    (hdelta : delta ≠ 0) (d : Definitions) : d.adjustStack u delta = .bv width a := by
  have hle : width ≤ 64 := ((Ty.isValid_bv width).1 hvalid).2
  -- Both are masked, so they are equal if they are at the width.
  have hback {z : Word} (hz : z.setWidth width + BitVec.ofInt width delta = a.setWidth width) :
      d.adjustStack (.ofWord width z) delta = .bv width a := by
    have hmoved : d.adjustStack (.ofWord width z) delta =
        .ofWord width (z.keepLow width + Word.ofSigned delta) := if_neg hdelta
    rw [hmoved, Value.ofWord]
    congr 1
    rw [← Word.setWidth_inj_of_masked (Word.keepLow_keepLow width _) ha, Word.setWidth_keepLow,
      BitVec.setWidth_add _ _ hle, Word.setWidth_keepLow, Word.setWidth_ofSigned hle, hz]
  simp only [App.fold, Value.ofWord, BinaryOp.fold, BinaryOp.evalWords, hvalid, Bool.not_true,
    Bool.false_eq_true, if_false] at hfold
  cases h with
  | sub =>
    cases hfold
    refine hback ?_
    rw [Word.setWidth_sub hle, Word.setWidth_keepLow, Word.setWidth_ofSigned hle,
      BitVec.sub_add_cancel]
  | add =>
    cases hfold
    refine hback ?_
    rw [BitVec.setWidth_add _ _ hle, Word.setWidth_keepLow, Word.setWidth_ofSigned hle,
      BitVec.ofInt_neg, ← BitVec.sub_eq_add_neg, BitVec.sub_add_cancel]

end Push

/-! ### The table of results -/

/-- Everything in the table is the result of a statement of the block. -/
def OpenBlock.MemoRecorded (blk : OpenBlock) : Prop :=
  ∀ rhs v, (rhs, v) ∈ blk.memo → ∃ id ty, v = .assign id ty ∧ Stmt.assign id ty rhs ∈ blk.stmts

/-- The record stays right when a statement is added behind the others. -/
theorem OpenBlock.MemoRecorded.append {blk : OpenBlock} (h : blk.MemoRecorded) (s : Stmt) :
    OpenBlock.MemoRecorded { blk with stmts := blk.stmts ++ [s] } := by
  intro rhs v hv
  obtain ⟨id, ty, hval, hmem⟩ := h rhs v hv
  exact ⟨id, ty, hval, List.mem_append_left [s] hmem⟩

/-- A name is entered together with its statement. -/
theorem Builder.kept_memoRecorded :
    Builder.Kept (fun _ => True) (fun _ => True)
      fun b => ∀ blk, b.current = some blk → blk.MemoRecorded where
  write {b blk _ _ _} _ _ hblk hb := by
    intro _ h
    cases h
    exact hb blk hblk
  append _ hblk hb := by
    intro _ h
    cases h
    exact (hb _ hblk).append _
  name {b blk rhs ty} _ hblk hb := by
    intro _ h
    cases h
    -- An entry of the table is the new name, or it was there before.
    intro other v hv
    have hold := (hb blk hblk).append (.assign b.issued ty rhs) other v
    dsimp only at hv
    split at hv
    · rcases List.mem_cons.1 hv with heq | hv
      · cases heq
        exact ⟨_, _, rfl, List.mem_append_right _ List.mem_cons_self⟩
      · exact hold hv
    · exact hold hv

/-- In every state that construction can get to, the table is right about
the open block. -/
theorem Builder.Reachable.memoRecorded {b : Builder} (h : b.Reachable) :
    ∀ blk, b.current = some blk → blk.MemoRecorded :=
  h.of_kept (fun _ _ _ _ _ hv => absurd hv List.not_mem_nil) Builder.kept_memoRecorded

namespace Build

variable {b b' : Builder} {u : Value}

/-- An application that is not folded has its statement in the block,
whether the name is old or new. -/
theorem recorded_of_evaluateApp (hb : b.Reachable) {app : App} (hfold : app.fold = none)
    (h : evaluateApp app b = (.ok u, b')) :
    ∃ id ty, app.resultType = .ok ty ∧ u = .assign id ty ∧
      Stmt.assign id ty (.app app) ∈ b'.stmts := by
  obtain ⟨ty, hty, ⟨hsome, -⟩ | ⟨-, hdefine⟩⟩ := evaluateApp_eq_ok_iff.1 h
  · rw [hfold] at hsome
    cases hsome
  · obtain ⟨blk, hblk, ⟨-, hmemo, rfl⟩ | ⟨-, rfl, rfl⟩⟩ := define_eq_ok_iff.1 hdefine
    · -- Found in the table: the statement is an earlier one.
      have hmem := mem_of_lookup_eq_some hmemo
      obtain ⟨id, ty', rfl, hstmt⟩ := hb.memoRecorded blk hblk _ _ hmem
      refine ⟨id, ty', hb.memoTyped blk hblk app _ hmem, rfl, ?_⟩
      simpa [Builder.stmts, hblk] using hstmt
    · exact ⟨_, ty, hty, rfl, by simp [Builder.stmts]⟩

end Build

/-- A push that has its statement among those recorded is undone. -/
theorem Push.adjustStack_eq {delta : Int} {op : BinaryOp} {w : Word} (h : Push delta op w)
    (hdelta : delta ≠ 0) {d : Definitions} {id : AssignId} {width : Nat} {v : Value}
    (happ : d.app? (.assign id (.bv width)) = some (.binary op v (.ofWord width w))) :
    d.adjustStack (.assign id (.bv width)) delta = v := by
  cases h with
  | sub => simp [Definitions.adjustStack, hdelta, Value.ty, Ty.width?, happ]
  | add =>
    rw [Word.ofSigned_neg] at happ
    simp [Definitions.adjustStack, hdelta, Value.ty, Ty.width?, happ]

/-- Adjusting the stack pointer after a push gives the value from before the
push, over all definitions that are recorded from the statements of the
block and others with other names. -/
theorem adjustStack_of_push {b b' : Builder} (hb : b.Reachable) {v u : Value} {width : Nat}
    (hty : v.ty = .bv width) (hmasked : v.Masked)
    (hreloc : ∀ segment offset n, v ≠ .reloc segment offset n) {delta : Int}
    (hdelta : ¬ ((2 ^ width : Nat) : Int) ∣ delta) {op : BinaryOp} {w : Word}
    (hpush : Push delta op w)
    (h : Build.evaluate (.binary op (.leaf v) (.leaf (.ofWord width w))) b = (.ok u, b'))
    {stmts : List Stmt} (hstmts : b'.stmts ⊆ stmts)
    (hnodup : (stmts.filterMap Stmt.assignId?).Nodup) (d : Definitions) :
    (d.record stmts).adjustStack u delta = v := by
  have happ : Build.evaluateApp (.binary op v (.ofWord width w)) b = (.ok u, b') := h
  have hzero : delta ≠ 0 := fun hzero => hdelta (hzero ▸ Int.dvd_zero _)
  obtain ⟨_, hresult, hvalue⟩ := Build.evaluateApp_eq_ok_iff.1 happ
  -- The push is well typed, so the width is a valid one.
  obtain ⟨hvalid, -, -⟩ := App.resultType_binary.1 hresult
  rw [hty] at hvalid
  by_cases hliteral : ∃ n a, v = .bv n a
  · obtain ⟨n, a, rfl⟩ := hliteral
    cases hty
    obtain ⟨hfold, -⟩ | ⟨hnone, -⟩ := hvalue
    · exact hpush.fold_literal hmasked hvalid hfold hzero _
    · -- Two literals are always computed.
      exfalso
      cases hpush <;>
        simp [App.fold, BinaryOp.fold, Value.ofWord, BinaryOp.evalWords, hvalid] at hnone
  · -- Anything else has a name now, and its definition is the push.
    have hle : width ≤ 64 := ((Ty.isValid_bv width).1 hvalid).2
    have hnone := hpush.fold_eq_none hty (hpush.keepLow_ne_zero hle hdelta)
      (fun n a hv => hliteral ⟨n, a, hv⟩) hreloc
    obtain ⟨id, ty, hresult, rfl, hmem⟩ := Build.recorded_of_evaluateApp hb hnone happ
    obtain rfl : ty = .bv width := by
      obtain ⟨-, -, hop⟩ := App.resultType_binary.1 hresult
      rw [hty] at hop
      cases hpush <;> exact (Except.ok.inj hop).symm
    refine hpush.adjustStack_eq hzero (Definitions.app?_eq_some_iff.2 ⟨id, _, rfl, ?_⟩)
    exact Definitions.agrees_record d hnodup id _ _ (hstmts hmem)

/-! ### Registers -/

/-- Every register of a well-typed file gets what is due to it after a
call. -/
theorem RegFile.Typed.get?_afterCall {m : Machine} {types : AssignId → Ty} {regs : RegFile}
    (hregs : regs.Typed m types) {defs : Definitions} (hdefs : defs.Typed types)
    (hip : m.regTy? m.ip = some m.addrTy) (ret : Word) {r : Reg} {v : Value}
    (hv : regs.get? r = some v) :
    (m.postCallRegs defs regs ret).get? r = some (m.afterCall defs ret r v) := by
  obtain ⟨hty, hfits⟩ := hregs r v hv
  have hsame : (m.afterCall defs ret r v).ty = v.ty := by
    unfold Machine.afterCall
    split
    · rename_i heq
      subst heq
      exact Option.some.inj (hip.symm.trans hty)
    · split
      · exact (Definitions.moves_adjustStack hdefs hfits (Machine.regTy_isValid hty) _).ty_eq
      · split <;> rfl
  rw [RegFile.get?_postCallRegs, hv, Option.map_some, if_pos hsame]

/-- An adjusted stack pointer has moved by the distance or is lost, and a
push is undone exactly. After a call the instruction pointer is at the
return address, the stack pointer is adjusted, registers that the callee
preserves and the zero register are as before, and all others are lost. -/
theorem postCallRegs_sound :
    (∀ (defs : Definitions) (types : AssignId → Ty) (v : Value) (delta : Int), defs.Typed types →
      v.Fits types → v.ty.isValid = true → defs.Moves types delta v (defs.adjustStack v delta)) ∧
    (∀ (b b' : Builder) (v u : Value) (width : Nat) (delta : Int) (op : BinaryOp) (w : Word)
      (d : Definitions) (stmts : List Stmt), b.Reachable → v.ty = .bv width → v.Masked →
      (∀ segment offset n, v ≠ .reloc segment offset n) → ¬ ((2 ^ width : Nat) : Int) ∣ delta →
      Push delta op w →
      Build.evaluate (.binary op (.leaf v) (.leaf (.ofWord width w))) b = (.ok u, b') →
      b'.stmts ⊆ stmts → (stmts.filterMap Stmt.assignId?).Nodup →
      (d.record stmts).adjustStack u delta = v) ∧
    ∀ (m : Machine) (defs : Definitions) (types : AssignId → Ty) (regs : RegFile) (ret : Word),
      defs.Typed types → regs.Typed m types → m.ip ≠ m.sp → m.regTy? m.ip = some m.addrTy →
      (m.postCallRegs defs regs ret).size = regs.size ∧
      ∀ r v, regs.get? r = some v →
        ∃ u, (m.postCallRegs defs regs ret).get? r = some u ∧
          (r = m.ip → u = m.addr ret) ∧
          (r = m.sp → u = defs.adjustStack v m.callAdjust ∧ defs.Moves types m.callAdjust v u) ∧
          (r ≠ m.ip → r ≠ m.sp → (m.isCalleeSaved r = true ∨ m.zero = some r) → u = v) ∧
          (r ≠ m.ip → r ≠ m.sp → ¬ (m.isCalleeSaved r = true ∨ m.zero = some r) →
            u = .clobbered v.ty) := by
  refine ⟨fun defs types v delta hdefs hv hvalid =>
    Definitions.moves_adjustStack hdefs hv hvalid delta, ?_, ?_⟩
  · intro b b' v u width delta op w d stmts hb hty hmasked hreloc hdelta hpush h hstmts hnodup
    exact adjustStack_of_push hb hty hmasked hreloc hdelta hpush h hstmts hnodup d
  · intro m defs types regs ret hdefs hregs hne hip
    refine ⟨by simp [Machine.postCallRegs, RegFile.size], fun r v hv => ?_⟩
    obtain ⟨hty, hfits⟩ := hregs r v hv
    refine ⟨_, hregs.get?_afterCall hdefs hip ret hv, fun hr => ?_, fun hr => ?_,
      fun hri hrs hkept => ?_, fun hri hrs hlost => ?_⟩
    · simp [Machine.afterCall, hr]
    · -- The two pointers are different registers, so this one is not overwritten.
      have hmoved : m.afterCall defs ret r v = defs.adjustStack v m.callAdjust := by
        simp [Machine.afterCall, hr, hne.symm]
      rw [hmoved]
      exact ⟨rfl, Definitions.moves_adjustStack hdefs hfits (Machine.regTy_isValid hty) _⟩
    · simp [Machine.afterCall, hri, hrs, hkept]
    · simp [Machine.afterCall, hri, hrs, hlost]

/-- A machine that pushes the return address, with one register of each
kind. -/
def frameMachine : Machine where
  name := "frame"
  addrWidth := 64
  order := .little
  registers := [.word64 "ip", .word64 "sp", .word64 "saved", .word64 "scratch", .word64 "zero"]
  ip := 0
  sp := 1
  zero := some 4
  calleeSaved := [2]
  callAdjust := 8

/-- Where the return address has been pushed. -/
def frameRegs : RegFile :=
  ⟨[.bv 64 0x2000, .assign 0 (.bv 64), .initial 2 (.bv 64), .initial 3 (.bv 64), .bv 64 0]⟩

/-- Room for the return address is made. -/
def frameStmts : List Stmt :=
  [.assign 0 (.bv 64) (.app (.binary .add (.initial 1 (.bv 64)) (.bv 64 0xfffffffffffffff8)))]

/-- Every register of the example holds a value of its own type. -/
theorem typed_frameRegs : frameRegs.Typed frameMachine fun _ => .bv 64 := by
  intro r v hv
  -- There are five registers, each with one value.
  rcases r with _ | _ | _ | _ | _ | r <;> cases hv
  · exact ⟨rfl, (by decide : Word.keepLow 64 0x2000 = 0x2000)⟩
  · exact ⟨rfl, rfl⟩
  · exact ⟨rfl, trivial⟩
  · exact ⟨rfl, trivial⟩
  · exact ⟨rfl, (by decide : Word.keepLow 64 0 = 0)⟩

/-- Its one statement is well typed, with operands that fit. -/
theorem typed_frameStmts : (Definitions.ofStmts frameStmts).Typed fun _ => .bv 64 := by
  have hcases {id : AssignId} {rhs : Rhs}
      (h : (Definitions.ofStmts frameStmts).assigned.lookup id = some rhs) :
      rhs = .app (.binary .add (.initial 1 (.bv 64)) (.bv 64 0xfffffffffffffff8)) :=
    (Prod.mk.inj (List.mem_singleton.1 (mem_of_lookup_eq_some h))).2
  refine ⟨fun id app h => ?_, fun id app h v hv => ?_⟩
  · cases hcases h
    decide
  · cases hcases h
    rcases List.mem_pair.1 hv with rfl | rfl
    · trivial
    · exact (by decide : Word.keepLow 64 0xfffffffffffffff8 = 0xfffffffffffffff8)

/-- The stack pointer is lowered by adding a negative number. The call
raises it again, and it is the entry value. -/
theorem postCallRegs_sound_frame :
    ∃ b', Build.evaluate (.binary .add (.leaf (.initial 1 (.bv 64)))
        (.leaf (.ofWord 64 (Word.ofSigned (-8))))) (.start {} 0x1000 ⟨[]⟩) =
          (.ok (.assign 0 (.bv 64)), b') ∧
      b'.stmts = frameStmts ∧
      (Definitions.ofStmts frameStmts).adjustStack (.assign 0 (.bv 64)) 8 = .initial 1 (.bv 64) ∧
      (frameMachine.postCallRegs (.ofStmts frameStmts) frameRegs 0x1005).values =
        [.bv 64 0x1005, .initial 1 (.bv 64), .initial 2 (.bv 64), .clobbered (.bv 64), .bv 64 0] ∧
      (Definitions.ofStmts frameStmts).Moves (fun _ => .bv 64) 8 (.assign 0 (.bv 64))
        (.initial 1 (.bv 64)) := by
  obtain ⟨-, hundo, hcall⟩ := postCallRegs_sound
  have hback : (Definitions.ofStmts frameStmts).adjustStack (.assign 0 (.bv 64)) 8 =
      .initial 1 (.bv 64) :=
    hundo _ _ (.initial 1 (.bv 64)) _ 64 8 .add _ {} frameStmts (.start {} 0x1000 ⟨[]⟩) rfl
      trivial (fun _ _ _ h => by cases h) (by decide) .add rfl (List.Subset.refl _) (by decide)
  obtain ⟨-, hregs⟩ := hcall frameMachine _ _ frameRegs 0x1005 typed_frameStmts typed_frameRegs
    (by decide) rfl
  obtain ⟨u, -, -, hsp, -⟩ := hregs 1 (.assign 0 (.bv 64)) rfl
  obtain ⟨rfl, hmoves⟩ := hsp rfl
  exact ⟨_, rfl, rfl, hback, by decide, hback ▸ hmoves⟩

end FlowRecovery
