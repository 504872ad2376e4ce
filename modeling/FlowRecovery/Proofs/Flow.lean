import FlowRecovery.Proofs.Explore
import FlowRecovery.Proofs.Linear
import FlowRecovery.Proofs.Simulation
import Mathlib.Data.Option.Basic

/-!
# `FlowRecovery.Proofs.Flow`: what a classified block really does

Classification looks at values; this file says what it has found out
about data. `Flow.Holds` is the meaning of each kind of flow in one
valuation: where the instruction pointer really is, what the stack
pointer and the link register really hold. `Chain.classifyBlock_sound`
says that the flow of a block holds in every valuation that satisfies the
recorded definitions, and that no target that is known is dropped.

A call through the stack is recognised by comparing the address of the
last store with the stack pointer, as values. Two clobbered values look
alike and may differ, so the store goes to the stack pointer exactly if
that is not clobbered (`CallStyle.Leaves`).
-/

set_option autoImplicit false

namespace FlowRecovery

/-! ### Data as addresses -/

/-- The datum is this address. -/
def Datum.IsAddress (d : Datum) (a : Word) : Prop :=
  ∃ width x, d = .bits width x ∧ x.toNat = a.toNat

/-- The second datum is the first with at most its low two bits
cleared. -/
def Datum.ClearsTo (d e : Datum) : Prop :=
  ∃ width x mask, d = .bits width x ∧ e = .bits width (x &&& mask) ∧ (~~~mask).toNat ≤ 3

/-- A value whose address is known denotes that address. A literal is
masked, and a relocation is placed as the image says. -/
theorem Value.isAddress_of_address? {img : Image} {ρ : Valuation} (hρ : ρ.Places img)
    {types : AssignId → Ty} {v : Value} (hv : v.Fits types) {a : Word}
    (h : v.address? img = some a) {d : Datum} (hd : ρ.Denotes v d) : d.IsAddress a := by
  cases v with
  | bv width w =>
    cases h
    cases hd
    exact ⟨width, _, rfl, Word.toNat_setWidth_of_masked hv⟩
  | reloc segment offset width =>
    obtain ⟨seg, hseg, rfl⟩ := Option.map_eq_some_iff.1 h
    cases hd
    refine ⟨width, _, rfl, ?_⟩
    rw [hρ segment seg hseg, BitVec.toNat_setWidth, Word.toNat_keepLow]
  | bool | initial | returnAddr | clobbered | assign => cases h

/-- An executable address is an address, and can be executed. -/
theorem Value.address?_of_executableAddress? {img : Image} {v : Value} {a : Word}
    (h : v.executableAddress? img = some a) :
    v.address? img = some a ∧ img.isExecutable a = true := by
  rw [executableAddress?] at h
  exact Option.filter_eq_some_iff.1 h

/-! ### The meaning of a flow -/

/-- The registers respect the machine and the types of assignments. -/
def RegFile.Typed (m : Machine) (types : AssignId → Ty) (regs : RegFile) : Prop :=
  ∀ r v, regs.get? r = some v → m.regTy? r = some v.ty ∧ v.Fits types

/-- The register has a value, and whatever that value may be has the
property. -/
def RegFile.Always (regs : RegFile) (ρ : Valuation) (r : Reg) (p : Datum → Prop) : Prop :=
  ∃ v, regs.get? r = some v ∧ ∀ d, ρ.Denotes v d → p d

/-- The two customs of leaving a return address. -/
inductive CallStyle where
  | linked
  | stacked
deriving DecidableEq, Repr

namespace CallStyle

/-- The recognizers of a custom. -/
def recognizers (m : Machine) : CallStyle → Recognizers
  | .linked => .linked m
  | .stacked => .stacked m

/-- A call leaves the return address in the link register, or it stores
it last. That store goes to where the stack pointer ends up exactly if
the stack pointer is not clobbered. -/
def Leaves (s : Setting) (ρ : Valuation) (stmts : List Stmt) (regs : RegFile) (ret : Word) :
    CallStyle → Prop
  | .linked => ∃ link, s.machine.link = some link ∧ regs.Always ρ link (·.IsAddress ret)
  | .stacked => ∃ before after addr value sp,
      stmts = before ++ .store addr value :: after ∧ (∀ a v, .store a v ∉ after) ∧
      (∀ d, ρ.Denotes value d → d.IsAddress ret) ∧ regs.get? s.machine.sp = some sp ∧
      ((∀ d e, ρ.Denotes addr d → ρ.Denotes sp e → d = e) ↔ sp.isClobbered = false)

end CallStyle

/-- What a flow says about a block with these statements. -/
def Flow.Holds (style : CallStyle) (s : Setting) (ρ : Valuation) (stmts : List Stmt) : Flow → Prop
  | .jump regs target => regs.Always ρ s.machine.ip (·.IsAddress target)
  | .branch regs cond onTrue onFalse => regs.Always ρ s.machine.ip fun d =>
      ∃ c, ρ.Denotes cond (.bool c) ∧ d.IsAddress (if c then onTrue else onFalse)
  | .conditionalReturn regs cond returnsWhen next => regs.Always ρ s.machine.ip fun d =>
      ∃ c, ρ.Denotes cond (.bool c) ∧
        if c = returnsWhen then (ρ.denote s.machine.returnAddr).ClearsTo d else d.IsAddress next
  | .ret regs => regs.Always ρ s.machine.ip (ρ.denote s.machine.returnAddr).ClearsTo
  | .tailCall regs =>
      (regs.Always ρ s.machine.ip fun d =>
        ∃ a ∈ s.known, s.image.isExecutable a = true ∧ d.IsAddress a) ∧
      ∃ ty, s.machine.regTy? s.machine.sp = some ty ∧
        regs.Always ρ s.machine.sp (· = ρ.denote (.initial s.machine.sp ty))
  | .call regs returnAddr =>
    nextInstruction? stmts = some returnAddr ∧ style.Leaves s ρ stmts regs returnAddr
  | _ => True

/-- Where a flow goes on within the function. -/
def Flow.continuations : Flow → List Word
  | .jump _ target => [target]
  | .branch _ _ onTrue onFalse => [onTrue, onFalse]
  | .conditionalReturn _ _ _ next => [next]
  | .call _ returnAddr => [returnAddr]
  | _ => []

/-- What the valuation must respect: the layout of memory, the recorded
definitions, and what is known about the return address. -/
structure Valuation.Models (ρ : Valuation) (s : Setting) (types : AssignId → Ty) : Prop where
  typed : ρ.Typed
  places : ρ.Places s.image
  satisfies : ρ.Satisfies types s.defs
  returns : ∀ v d, s.abs v = .returnAddr → ρ.Denotes v d →
    (ρ.denote s.machine.returnAddr).ClearsTo d

/-- The values among which the instruction pointer is: the arms of a
choice, or itself. -/
def Setting.ipArms (s : Setting) (regs : RegFile) : List Value :=
  match regs.get? s.machine.ip with
  | none => []
  | some v =>
    match s.defs.app? v with
    | some (.select _ onTrue onFalse) => [onTrue, onFalse]
    | _ => [v]

/-! ### Candidates -/

/-- The candidate and its recorded definitions are well typed. -/
structure Candidate.Typed (types : AssignId → Ty) (c : Candidate) : Prop where
  defs : c.setting.defs.Typed types
  stmts : ∀ s ∈ c.stmts, ∀ v ∈ s.uses, v.Fits types
  regs : c.regs.Typed c.setting.machine types

namespace Candidate

variable {types : AssignId → Ty} {c : Candidate} {ρ : Valuation}

/-- The instruction pointer is a choice exactly if it is defined as one. -/
theorem ipChoice?_eq_some_iff {cond onTrue onFalse : Value} :
    c.ipChoice? = some (cond, onTrue, onFalse) ↔
      ∃ v, c.ip? = some v ∧ c.setting.defs.app? v = some (.select cond onTrue onFalse) := by
  rw [ipChoice?]
  cases hip : c.ip? with
  | none => simp
  | some v =>
    simp only [Option.bind_some]
    cases happ : c.setting.defs.app? v with
    | none => simp [happ]
    | some app => cases app <;> simp [happ]

/-- The instruction pointer is at its target. -/
theorem always_target (hc : c.Typed types) (hρ : ρ.Models c.setting types) {target : Word}
    (h : c.target? = some target) :
    c.regs.Always ρ c.setting.machine.ip (·.IsAddress target) ∧
      c.setting.image.isExecutable target = true := by
  obtain ⟨v, hv, haddr⟩ := Option.bind_eq_some_iff.1 h
  obtain ⟨haddr, hexec⟩ := Value.address?_of_executableAddress? haddr
  refine ⟨⟨v, hv, fun d hd => ?_⟩, hexec⟩
  exact Value.isAddress_of_address? hρ.places (hc.regs _ _ hv).2 haddr hd

/-- The instruction pointer is one of two data, as the condition says. -/
theorem always_choice (hc : c.Typed types) (hρ : ρ.Models c.setting types)
    {cond onTrue onFalse : Value} (h : c.ipChoice? = some (cond, onTrue, onFalse)) :
    (cond.Fits types ∧ onTrue.Fits types ∧ onFalse.Fits types) ∧
      c.regs.Always ρ c.setting.machine.ip fun d =>
        ∃ b x y, ρ.Denotes cond (.bool b) ∧ ρ.Denotes onTrue x ∧ ρ.Denotes onFalse y ∧
          d = if b then x else y := by
  obtain ⟨v, hv, happ⟩ := ipChoice?_eq_some_iff.1 h
  obtain ⟨hty, hfits, hclobbered, hyields⟩ := hc.defs.of_app? (hc.regs _ _ hv).2 happ
  refine ⟨⟨hfits cond (by simp [App.operands]), hfits onTrue (by simp [App.operands]),
    hfits onFalse (by simp [App.operands])⟩, v, hv, fun d hd => ?_⟩
  rw [Valuation.denotes_iff hclobbered] at hd
  obtain ⟨k, x, y, hk, hx, hy, hchoose⟩ := Valuation.yields_select.1 (hyields ρ hρ.satisfies)
  obtain ⟨-, hbool, -, -⟩ := App.resultType_select.1 hty
  obtain ⟨b, rfl⟩ := Datum.exists_bool ((hk.ty_eq hρ.typed).trans hbool)
  exact ⟨b, x, y, hk, hx, hy, hd.trans (Option.some.inj hchoose).symm⟩

/-- The stack pointer is back where it was at entry. -/
theorem always_stackAtEntry (hdefs : c.setting.defs.Typed types)
    (hregs : c.regs.Typed c.setting.machine types) (hρ : ρ.Typed)
    (hsat : ρ.Satisfies types c.setting.defs) (h : c.stackAtEntry = true) :
    ∃ ty, c.setting.machine.regTy? c.setting.machine.sp = some ty ∧
      c.regs.Always ρ c.setting.machine.sp (· = ρ.denote (.initial c.setting.machine.sp ty)) := by
  rw [stackAtEntry] at h
  cases hsp : c.regs.get? c.setting.machine.sp with
  | none =>
    rw [hsp] at h
    cases h
  | some v =>
    rw [hsp] at h
    obtain ⟨hty, hfits⟩ := hregs _ _ hsp
    refine ⟨v.ty, hty, v, hsp, fun d hd => ?_⟩
    have hlinear (hform : c.setting.defs.linear v = some ⟨some c.setting.machine.sp, 0⟩) :
        d = ρ.denote (.initial c.setting.machine.sp v.ty) := by
      obtain ⟨hclobbered, width, hwidth, x, hx, hv⟩ :=
        Definitions.linear_sound hdefs hρ hsat hfits hform
      rw [(Valuation.denotes_iff hclobbered d).1 hd, hwidth, hx, hv]
      simp
    cases v with
    | initial reg ty =>
      obtain rfl : reg = c.setting.machine.sp := by simpa using h
      exact hd
    | bool | bv | reloc | returnAddr | clobbered | assign => exact hlinear (by simpa using h)

/-- The block that a rule makes of the candidate: it says the truth about
it and goes on where its flow does. -/
structure Explained (style : CallStyle) (types : AssignId → Ty) (c : Candidate)
    (block : FlowBlock) : Prop where
  recognised : block.flow.kind ≠ .indirectJump ∧ block.flow.kind ≠ .unclassified
  regs : block.flow.regs? = some c.regs
  successors : block.successors = block.flow.continuations
  executable : ∀ a ∈ block.successors, c.setting.image.isExecutable a = true
  holds : ∀ ρ : Valuation, ρ.Models c.setting types →
    block.flow.Holds style c.setting ρ c.stmts

/-- All places that control may go to are known. -/
def Known (c : Candidate) : Prop :=
  ∀ v ∈ c.setting.ipArms c.regs, ∃ a, c.executableAddress? v = some a

/-- The block drops no place that control may go to, other than the
return address and the entries of known functions. -/
def Kept (c : Candidate) (block : FlowBlock) : Prop :=
  ∀ v ∈ c.setting.ipArms c.regs, ∀ a, c.executableAddress? v = some a →
    a ∈ block.successors ∨ a ∈ block.newFunctions ∨ c.setting.abs v = .returnAddr ∨
      a ∈ c.setting.known

/-- The arms of a choice. -/
theorem ipArms_of_choice {cond onTrue onFalse : Value}
    (h : c.ipChoice? = some (cond, onTrue, onFalse)) :
    c.setting.ipArms c.regs = [onTrue, onFalse] := by
  obtain ⟨v, hv, happ⟩ := ipChoice?_eq_some_iff.1 h
  have hv : c.regs.get? c.setting.machine.ip = some v := hv
  rw [Setting.ipArms, hv]
  simp only [happ]

/-- Without a choice, the instruction pointer itself is the only arm. -/
theorem ipArms_of_no_choice (h : c.ipChoice? = none) :
    c.setting.ipArms c.regs = c.ip?.toList := by
  rw [Setting.ipArms, ip?]
  cases hv : c.regs.get? c.setting.machine.ip with
  | none => rfl
  | some v =>
    simp only
    split
    · rename_i cond onTrue onFalse happ
      rw [ipChoice?_eq_some_iff.2 ⟨v, hv, happ⟩] at h
      cases h
    · rfl

end Candidate

/-! ### The rules, one by one -/

/-- A guard that is passed holds. -/
theorem of_guard_eq_some {p : Prop} [Decidable p] {u : Unit}
    (h : (guard p : Option Unit) = some u) : p := by
  by_contra hne
  rw [guard, if_neg hne] at h
  cases h

namespace Rule

variable {types : AssignId → Ty} {style : CallStyle} {c : Candidate} {block : FlowBlock}

/-- What the rule for branches has seen: a choice between two executable
addresses. -/
theorem branch_eq_some (h : branch.apply c = .ok (some block)) :
    ∃ cond onTrue onFalse t f, c.ipChoice? = some (cond, onTrue, onFalse) ∧
      c.executableAddress? onTrue = some t ∧ c.executableAddress? onFalse = some f ∧
      block = c.withFlow (.branch c.regs cond t f) [t, f] := by
  simp only [branch, Except.ok.injEq] at h
  split at h
  · rename_i cond onTrue onFalse hchoice
    split at h
    · rename_i t f ht hf
      cases h
      exact ⟨cond, onTrue, onFalse, t, f, hchoice, ht, hf, rfl⟩
    · cases h
  · cases h

/-- A branch says where control goes, and both places are successors. -/
theorem branch_explained (hc : c.Typed types) (h : branch.apply c = .ok (some block)) :
    c.Explained style types block ∧ c.Kept block := by
  obtain ⟨cond, onTrue, onFalse, t, f, hchoice, ht, hf, rfl⟩ := branch_eq_some h
  obtain ⟨htaddr, htexec⟩ := Value.address?_of_executableAddress? ht
  obtain ⟨hfaddr, hfexec⟩ := Value.address?_of_executableAddress? hf
  refine ⟨⟨by simp [Candidate.withFlow, Flow.kind], rfl, rfl, ?_, ?_⟩, ?_⟩
  · intro a ha
    rcases List.mem_pair.1 ha with rfl | rfl
    · exact htexec
    · exact hfexec
  · intro ρ hρ
    obtain ⟨⟨-, htfits, hffits⟩, v, hv, hdata⟩ := c.always_choice hc hρ hchoice
    refine ⟨v, hv, fun d hd => ?_⟩
    obtain ⟨b, x, y, hcond, hx, hy, rfl⟩ := hdata d hd
    refine ⟨b, hcond, ?_⟩
    cases b with
    | true => exact Value.isAddress_of_address? hρ.places htfits htaddr hx
    | false => exact Value.isAddress_of_address? hρ.places hffits hfaddr hy
  · intro v hv a ha
    rw [c.ipArms_of_choice hchoice] at hv
    refine Or.inl (List.mem_pair.2 ?_)
    rcases List.mem_pair.1 hv with rfl | rfl
    · exact Or.inl (Option.some.inj (ha.symm.trans ht))
    · exact Or.inr (Option.some.inj (ha.symm.trans hf))

/-- What the rule for conditional returns has seen: a choice in which
exactly one arm is the return address, and the other is executable. -/
theorem conditionalReturn_eq_some (h : conditionalReturn.apply c = .ok (some block)) :
    ∃ cond onTrue onFalse returnsWhen next, c.ipChoice? = some (cond, onTrue, onFalse) ∧
      c.setting.abs (if returnsWhen then onTrue else onFalse) = .returnAddr ∧
      c.address? (if returnsWhen then onFalse else onTrue) = some next ∧
      c.setting.image.isExecutable next = true ∧
      block = c.withFlow (.conditionalReturn c.regs cond returnsWhen next) [next] := by
  simp only [conditionalReturn] at h
  split at h
  · cases h
  · rename_i cond onTrue onFalse hchoice
    split at h
    · cases h
    · rename_i hdiffer
      split at h
      · cases h
      · rename_i next hnext
        split at h
        · cases h
        · rename_i hexec
          split at h
          · cases h
          · cases h
            refine ⟨cond, onTrue, onFalse, _, next, hchoice, ?_, hnext, by simpa using hexec, rfl⟩
            -- Exactly one of the arms returns.
            cases ht : c.setting.abs onTrue == .returnAddr with
            | true => exact beq_iff_eq.1 ht
            | false =>
              rw [ht] at hdiffer
              cases hf : c.setting.abs onFalse == .returnAddr with
              | true => exact beq_iff_eq.1 hf
              | false => exact absurd (by rw [hf]; rfl) hdiffer

/-- A conditional return says which arm returns, and goes on at the other
one. -/
theorem conditionalReturn_explained (hc : c.Typed types)
    (h : conditionalReturn.apply c = .ok (some block)) :
    c.Explained style types block ∧ c.Kept block := by
  obtain ⟨cond, onTrue, onFalse, returnsWhen, next, hchoice, habs, hnext, hexec, rfl⟩ :=
    conditionalReturn_eq_some h
  refine ⟨⟨by simp [Candidate.withFlow, Flow.kind], rfl, rfl, ?_, ?_⟩, ?_⟩
  · intro a ha
    rw [List.mem_singleton.1 ha]
    exact hexec
  · intro ρ hρ
    obtain ⟨⟨-, htfits, hffits⟩, v, hv, hdata⟩ := c.always_choice hc hρ hchoice
    refine ⟨v, hv, fun d hd => ?_⟩
    obtain ⟨b, x, y, hcond, hx, hy, rfl⟩ := hdata d hd
    refine ⟨b, hcond, ?_⟩
    -- Which arm is taken, against which arm returns.
    cases b <;> cases returnsWhen
    · exact hρ.returns onFalse y habs hy
    · exact Value.isAddress_of_address? hρ.places hffits hnext hy
    · exact Value.isAddress_of_address? hρ.places htfits hnext hx
    · exact hρ.returns onTrue x habs hx
  · intro v hv a ha
    rw [c.ipArms_of_choice hchoice] at hv
    obtain ⟨haddr, -⟩ := Value.address?_of_executableAddress? ha
    have hother (hne : c.address? v = some next) : a ∈ [next] :=
      List.mem_singleton.2 (Option.some.inj (haddr.symm.trans hne))
    rcases List.mem_pair.1 hv with rfl | rfl <;> cases returnsWhen
    · exact Or.inl (hother hnext)
    · exact Or.inr (Or.inr (Or.inl habs))
    · exact Or.inr (Or.inr (Or.inl habs))
    · exact Or.inl (hother hnext)

/-- A jump goes to the one place that is known. -/
theorem jump_explained (hc : c.Typed types) (h : jump.apply c = .ok (some block)) :
    c.Explained style types block ∧ (c.ipChoice? = none → c.Kept block) := by
  simp only [jump, Except.ok.injEq] at h
  split at h
  · rename_i target htarget
    cases h
    refine ⟨⟨by simp [Candidate.withFlow, Flow.kind], rfl, rfl, ?_,
      fun ρ hρ => (c.always_target hc hρ htarget).1⟩, ?_⟩
    · intro a ha
      obtain ⟨v, -, hv⟩ := Option.bind_eq_some_iff.1 htarget
      rw [List.mem_singleton.1 ha]
      exact (Value.address?_of_executableAddress? hv).2
    · intro hnone v hv a ha
      rw [c.ipArms_of_no_choice hnone, Option.mem_toList] at hv
      have ha : c.target? = some a := Option.bind_eq_some_iff.2 ⟨v, hv, ha⟩
      exact Or.inl (List.mem_singleton.2 (Option.some.inj (ha.symm.trans htarget)))
  · cases h

/-- A tail call goes to a known function, with the stack as it was at
entry. -/
theorem tailCall_explained (hc : c.Typed types) (h : tailCall.apply c = .ok (some block)) :
    c.Explained style types block ∧ (c.ipChoice? = none → c.Kept block) := by
  simp only [tailCall, Except.ok.injEq] at h
  split at h
  · rename_i target htarget
    split at h
    · rename_i hknown
      cases h
      rw [Bool.and_eq_true, List.contains_iff_mem] at hknown
      refine ⟨⟨by simp [Candidate.withFlow, Flow.kind], rfl, rfl,
        fun a ha => absurd ha List.not_mem_nil, fun ρ hρ => ?_⟩, ?_⟩
      · obtain ⟨⟨v, hv, hdata⟩, hexec⟩ := c.always_target hc hρ htarget
        exact ⟨⟨v, hv, fun d hd => ⟨target, hknown.1, hexec, hdata d hd⟩⟩,
          c.always_stackAtEntry hc.defs hc.regs hρ.typed hρ.satisfies hknown.2⟩
      · intro hnone v hv a ha
        rw [c.ipArms_of_no_choice hnone, Option.mem_toList] at hv
        have ha : c.target? = some a := Option.bind_eq_some_iff.2 ⟨v, hv, ha⟩
        exact Or.inr (Or.inr (Or.inr (Option.some.inj (ha.symm.trans htarget) ▸ hknown.1)))
    · cases h
  · cases h

/-- A return goes to the return address. Both customs recognise it alike.
-/
theorem ret_explained (hstyle : c.setting.recognizers = style.recognizers c.setting.machine)
    (h : ret.apply c = .ok (some block)) :
    c.Explained style types block ∧ (c.ipChoice? = none → c.Kept block) := by
  have hreturn : c.setting.recognizers.ret = Recognizers.ipReturn c.setting.machine := by
    rw [hstyle]
    cases style <;> rfl
  simp only [ret, Except.ok.injEq, hreturn] at h
  split at h
  · rename_i stmts hret
    cases h
    simp only [Recognizers.ipReturn, Option.bind_eq_bind, Option.bind_eq_some_iff] at hret
    obtain ⟨v, hv, _, hguard, -⟩ := hret
    have habs : c.setting.abs v = .returnAddr := of_guard_eq_some hguard
    refine ⟨⟨by simp [Candidate.withFlow, Flow.kind], rfl, rfl,
        fun a ha => absurd ha List.not_mem_nil, fun ρ hρ => ?_⟩, ?_⟩
    · exact ⟨v, hv, fun d hd => hρ.returns v d habs hd⟩
    · intro hnone u hu a _
      rw [c.ipArms_of_no_choice hnone, Option.mem_toList] at hu
      obtain rfl : u = v := Option.some.inj (hu.symm.trans hv)
      exact Or.inr (Or.inr (Or.inl habs))
  · cases h

end Rule

/-! ### Calls -/

/-- A value that is not clobbered is one datum, and a clobbered one is
not. -/
theorem Valuation.denotes_unique_iff {ρ : Valuation} {v : Value} (hv : v.ty.isValid = true) :
    (∀ d e, ρ.Denotes v d → ρ.Denotes v e → d = e) ↔ v.isClobbered = false := by
  constructor
  · intro h
    cases v with
    | clobbered ty =>
      cases ty with
      | bool => cases h (.bool true) (.bool false) rfl rfl
      | bv width =>
        have heq := h (.bits width 0) (.bits width 1) rfl rfl
        have hnat := congrArg BitVec.toNat (Datum.bits.inj heq |>.2 |> eq_of_heq)
        have hpos : 1 < 2 ^ width :=
          Nat.one_lt_two_pow (Nat.pos_iff_ne_zero.1 ((Ty.isValid_bv width).1 hv).1)
        simp [Nat.mod_eq_of_lt hpos] at hnat
    | bool | bv | reloc | initial | returnAddr | assign => rfl
  · -- The converse needs no valid type: one datum is what it denotes.
    intro hclobbered d e hd he
    rw [(denotes_iff hclobbered d).1 hd, (denotes_iff hclobbered e).1 he]

/-- No store comes after the last one. -/
theorem split_of_lastStore? {stmts : List Stmt} {i : Nat} {addr value : Value}
    (h : lastStore? stmts = some (i, addr, value)) :
    ∃ before after, stmts = before ++ .store addr value :: after ∧ ∀ a v, .store a v ∉ after := by
  -- The search goes backwards, so what it has skipped comes later.
  obtain ⟨later, ⟨s, j⟩, earlier, hsplit, hs, hlater⟩ := List.findSome?_eq_some_iff.1 h
  have hzip : stmts.zipIdx = earlier.reverse ++ (s, j) :: later.reverse := by
    rw [← List.reverse_reverse stmts.zipIdx, hsplit]
    simp
  have hstmts : stmts = earlier.reverse.map Prod.fst ++ s :: later.reverse.map Prod.fst := by
    have hmap := congrArg (List.map Prod.fst) hzip
    rwa [List.zipIdx_map_fst, List.map_append, List.map_cons] at hmap
  cases s with
  | store addr' value' =>
    cases hs
    refine ⟨_, _, hstmts, fun a v hmem => ?_⟩
    obtain ⟨⟨t, k⟩, hmem, rfl⟩ := List.mem_map.1 hmem
    cases hlater (Stmt.store a v, k) (List.mem_reverse.1 hmem)
  | assign | arch | instruction | comment => cases hs

/-- Registers have valid types. -/
theorem Machine.regTy_isValid {m : Machine} {r : Reg} {ty : Ty} (h : m.regTy? r = some ty) :
    ty.isValid = true := by
  obtain ⟨reg, -, rfl⟩ := Option.map_eq_some_iff.1 h
  exact reg.valid

namespace Rule

variable {types : AssignId → Ty} {style : CallStyle} {c : Candidate} {block : FlowBlock}

/-- What the recognizers of both styles find. -/
theorem leaves_of_call (hc : c.Typed types)
    (hstyle : c.setting.recognizers = style.recognizers c.setting.machine)
    {stmts : List Stmt} {returnAddr : Word}
    (h : c.setting.recognizers.call c.setting.image c.stmts c.regs = some (stmts, returnAddr)) :
    nextInstruction? c.stmts = some returnAddr ∧
      c.setting.image.isExecutable returnAddr = true ∧
      ∀ ρ : Valuation, ρ.Models c.setting types →
        style.Leaves c.setting ρ c.stmts c.regs returnAddr := by
  have hback (hguard : Recognizers.comesBackTo c.setting.image c.stmts returnAddr = true) :
      nextInstruction? c.stmts = some returnAddr ∧
        c.setting.image.isExecutable returnAddr = true := by
    rw [Recognizers.comesBackTo, Bool.and_eq_true, beq_iff_eq] at hguard
    exact hguard
  rw [hstyle] at h
  cases style with
  | linked =>
    simp only [CallStyle.recognizers, Recognizers.linked, Recognizers.linkCall,
      Option.bind_eq_bind, Option.bind_eq_some_iff] at h
    obtain ⟨link, hlink, v, hv, ret, haddr, _, hguard, _, -, _, -, h⟩ := h
    cases h
    obtain ⟨hnext, hexec⟩ := hback (of_guard_eq_some hguard)
    refine ⟨hnext, hexec, fun ρ hρ => ⟨link, hlink, v, hv, fun d hd => ?_⟩⟩
    exact Value.isAddress_of_address? hρ.places (hc.regs _ _ hv).2 haddr hd
  | stacked =>
    simp only [CallStyle.recognizers, Recognizers.stacked, Recognizers.stackCall,
      Option.bind_eq_bind, Option.bind_eq_some_iff] at h
    obtain ⟨sp, hsp, ⟨i, addr, value⟩, hstore, _, hsame, ret, haddr, _, hguard, h⟩ := h
    cases h
    obtain ⟨hnext, hexec⟩ := hback (of_guard_eq_some hguard)
    -- The recognizer compares the two as values. Equal values need not be
    -- equal data, which is why `Leaves` has a condition here.
    obtain rfl : addr = sp := of_guard_eq_some hsame
    obtain ⟨before, after, hstmts, hlast⟩ := split_of_lastStore? hstore
    have hvalue : value.Fits types :=
      hc.stmts (.store addr value) (by rw [hstmts]; simp) value (by simp [Stmt.uses])
    refine ⟨hnext, hexec, fun ρ hρ =>
      ⟨before, after, addr, value, addr, hstmts, hlast, ?_, hsp, ?_⟩⟩
    · exact fun d hd => Value.isAddress_of_address? hρ.places hvalue haddr hd
    · exact Valuation.denotes_unique_iff (Machine.regTy_isValid (hc.regs _ _ hsp).1)

/-- A call leaves the return address behind, and comes back to the next
instruction. -/
theorem call_explained (hc : c.Typed types)
    (hstyle : c.setting.recognizers = style.recognizers c.setting.machine)
    (h : call.apply c = .ok (some block)) :
    c.Explained style types block ∧ (c.ipChoice? = none → c.Kept block) := by
  simp only [call, Except.ok.injEq] at h
  split at h
  · rename_i stmts returnAddr hcall
    cases h
    obtain ⟨hnext, hexec, hleaves⟩ := leaves_of_call hc hstyle hcall
    have hsuccessors : [returnAddr].filter c.setting.image.isExecutable = [returnAddr] := by
      simp [hexec]
    refine ⟨⟨by simp [Candidate.withFlow, Flow.kind], rfl, hsuccessors, ?_,
      fun ρ hρ => ⟨hnext, hleaves ρ hρ⟩⟩, ?_⟩
    · exact fun a ha => (List.mem_filter.1 ha).2
    · intro hnone v hv a ha
      rw [c.ipArms_of_no_choice hnone, Option.mem_toList] at hv
      -- The place that is called is a new function, not a successor.
      refine Or.inr (Or.inl (Option.mem_toList.2 ?_))
      exact Option.bind_eq_some_iff.2 ⟨v, hv, ha⟩
  · cases h

/-- Where the rule for branches declines and all places are known, there
is no choice. -/
theorem ipChoice?_of_declined (hbranch : branch.apply c = .ok none) (hknown : c.Known) :
    c.ipChoice? = none := by
  cases hchoice : c.ipChoice? with
  | none => rfl
  | some choice =>
    obtain ⟨cond, onTrue, onFalse⟩ := choice
    have harms := c.ipArms_of_choice hchoice
    obtain ⟨t, ht⟩ := hknown onTrue (by simp [harms])
    obtain ⟨f, hf⟩ := hknown onFalse (by simp [harms])
    simp [branch, hchoice, ht, hf] at hbranch

/-- Only where some place is unknown do the rules for branches and jumps
both decline. -/
theorem not_known_of_declined (hbranch : branch.apply c = .ok none)
    (hjump : jump.apply c = .ok none) : c.setting.ipArms c.regs ≠ [] → ¬c.Known := by
  intro hsome hknown
  have harms := c.ipArms_of_no_choice (ipChoice?_of_declined hbranch hknown)
  cases hip : c.ip? with
  | none =>
    rw [harms, hip] at hsome
    exact hsome rfl
  | some v =>
    obtain ⟨a, ha⟩ := hknown v (by simp [harms, hip])
    have htarget : c.target? = some a := Option.bind_eq_some_iff.2 ⟨v, hip, ha⟩
    simp [jump, htarget] at hjump

end Rule

/-! ### The chain -/

namespace Chain

variable {types : AssignId → Ty} {style : CallStyle} {c : Candidate}

/-- The first rule matches, or declines and leaves it to the others. -/
theorem firstMatch_cons_eq_ok {r : Rule} {rest : List Rule} {answer : Option FlowBlock}
    (h : firstMatch c (r :: rest) = .ok answer) :
    (∃ block, r.apply c = .ok (some block) ∧ answer = some block) ∨
      (r.apply c = .ok none ∧ firstMatch c rest = .ok answer) := by
  rw [firstMatch] at h
  cases happly : r.apply c with
  | error e =>
    rw [happly] at h
    cases h
  | ok found =>
    rw [happly] at h
    cases found with
    | none => exact Or.inr ⟨rfl, h⟩
    | some block =>
      cases h
      exact Or.inl ⟨block, rfl, rfl⟩

/-- The answer of the standard rules: an explanation that keeps what is
known, or none because something is not. -/
theorem firstMatch_standard (hc : c.Typed types)
    (hstyle : c.setting.recognizers = style.recognizers c.setting.machine)
    {answer : Option FlowBlock} (h : firstMatch c Rule.standard = .ok answer) :
    (∃ block, answer = some block ∧ c.Explained style types block ∧ (c.Known → c.Kept block)) ∨
      (answer = none ∧ (c.setting.ipArms c.regs ≠ [] → ¬c.Known)) := by
  obtain ⟨block, happly, rfl⟩ | ⟨hbranch, h⟩ := firstMatch_cons_eq_ok h
  · obtain ⟨hexplained, hkept⟩ := Rule.branch_explained hc happly
    exact Or.inl ⟨block, rfl, hexplained, fun _ => hkept⟩
  -- From here on a choice is not between known places.
  have hlater {block : FlowBlock}
      (hblock : c.Explained style types block ∧ (c.ipChoice? = none → c.Kept block)) :
      ∃ found, some block = some found ∧ c.Explained style types found ∧
        (c.Known → c.Kept found) :=
    ⟨block, rfl, hblock.1, fun hknown => hblock.2 (Rule.ipChoice?_of_declined hbranch hknown)⟩
  obtain ⟨block, happly, rfl⟩ | ⟨-, h⟩ := firstMatch_cons_eq_ok h
  · exact Or.inl (hlater (Rule.call_explained hc hstyle happly))
  obtain ⟨block, happly, rfl⟩ | ⟨-, h⟩ := firstMatch_cons_eq_ok h
  · exact Or.inl (hlater (Rule.ret_explained hstyle happly))
  obtain ⟨block, happly, rfl⟩ | ⟨-, h⟩ := firstMatch_cons_eq_ok h
  · exact Or.inl (hlater (Rule.tailCall_explained hc happly))
  obtain ⟨block, happly, rfl⟩ | ⟨hjump, h⟩ := firstMatch_cons_eq_ok h
  · exact Or.inl (hlater (Rule.jump_explained hc happly))
  cases h
  exact Or.inr ⟨rfl, Rule.not_known_of_declined hbranch hjump⟩

/-- The same with the rule for conditional returns in front, which only
some machines have. -/
theorem firstMatch_explained (hc : c.Typed types)
    (hstyle : c.setting.recognizers = style.recognizers c.setting.machine) {rules : List Rule}
    (hrules : rules = Rule.standard ∨ rules = Rule.conditionalReturn :: Rule.standard)
    {answer : Option FlowBlock} (h : firstMatch c rules = .ok answer) :
    (∃ block, answer = some block ∧ c.Explained style types block ∧ (c.Known → c.Kept block)) ∨
      (answer = none ∧ (c.setting.ipArms c.regs ≠ [] → ¬c.Known)) := by
  rcases hrules with rfl | rfl
  · exact firstMatch_standard hc hstyle h
  · obtain ⟨block, happly, rfl⟩ | ⟨-, h⟩ := firstMatch_cons_eq_ok h
    · obtain ⟨hexplained, hkept⟩ := Rule.conditionalReturn_explained hc happly
      exact Or.inl ⟨block, rfl, hexplained, fun _ => hkept⟩
    · exact firstMatch_standard hc hstyle h

/-- A chain reports no error that none of its rules reports. -/
theorem firstMatch_cons_ne_error {r : Rule} {rest : List Rule} {e : ClassifyError}
    (hr : r.apply c ≠ .error e) (hrest : firstMatch c rest ≠ .error e) :
    firstMatch c (r :: rest) ≠ .error e := by
  intro h
  rw [firstMatch] at h
  cases happly : r.apply c with
  | error e' =>
    rw [happly] at h
    cases h
    exact hr happly
  | ok found =>
    rw [happly] at h
    cases found with
    | none => exact hrest h
    | some block => cases h

/-- The standard rules recognise a block or decline. -/
theorem firstMatch_standard_ne_error (e : ClassifyError) :
    firstMatch c Rule.standard ≠ .error e := by
  refine firstMatch_cons_ne_error (by simp [Rule.branch]) ?_
  refine firstMatch_cons_ne_error (by simp [Rule.call]) ?_
  refine firstMatch_cons_ne_error (by simp [Rule.ret]) ?_
  refine firstMatch_cons_ne_error (by simp [Rule.tailCall]) ?_
  refine firstMatch_cons_ne_error (by simp [Rule.jump]) ?_
  simp [firstMatch]

/-- The rules leave it to the chain to say that none of them matched. -/
theorem firstMatch_ne_noRuleMatched {rules : List Rule}
    (hrules : rules = Rule.standard ∨ rules = Rule.conditionalReturn :: Rule.standard)
    (tried : Nat) : firstMatch c rules ≠ .error (.noRuleMatched tried) := by
  rcases hrules with rfl | rfl
  · exact firstMatch_standard_ne_error _
  · refine firstMatch_cons_ne_error ?_ (firstMatch_standard_ne_error _)
    intro h
    simp only [Rule.conditionalReturn] at h
    split at h
    · cases h
    · split at h
      · cases h
      · split at h
        · cases h
        · split at h
          · cases h
          · split at h <;> cases h

/-- A block that no rule recognises is an indirect jump, or it is left
without explanation. -/
theorem classifyExit_fetch {chain : Chain}
    (hrules : chain.rules = Rule.standard ∨ chain.rules = Rule.conditionalReturn :: Rule.standard)
    {s : Setting} {b : Block} {regs : RegFile} (hexit : b.exit = .fetch regs) {block : FlowBlock}
    (h : chain.classifyExit s b = .ok block) :
    firstMatch ⟨s, b.index, b.addr, b.stmts, regs⟩ chain.rules = .ok (some block) ∨
      (firstMatch ⟨s, b.index, b.addr, b.stmts, regs⟩ chain.rules = .ok none ∧
        block.successors = [] ∧
        (block.flow = .indirectJump regs ∨ ∃ reason, block.flow = .unclassified regs reason)) := by
  simp only [classifyExit, hexit, classify] at h
  cases hmatch : firstMatch ⟨s, b.index, b.addr, b.stmts, regs⟩ chain.rules with
  | error e =>
    rw [hmatch] at h
    cases e with
    | noRuleMatched tried => exact absurd hmatch (firstMatch_ne_noRuleMatched hrules tried)
    | notExecutable | infeasibleBranch => cases h
  | ok answer =>
    rw [hmatch] at h
    cases answer with
    | some found =>
      cases h
      exact Or.inl rfl
    | none =>
      refine Or.inr ⟨rfl, ?_⟩
      -- No rule has matched, so the setting of the chain decides.
      cases hfallback : chain.indirectFallback with
      | true =>
        simp only [hfallback, if_true] at h
        cases h
        exact ⟨rfl, Or.inl rfl⟩
      | false =>
        simp only [hfallback] at h
        cases h
        exact ⟨rfl, Or.inr ⟨_, rfl⟩⟩

/-- The flow of a block holds wherever its definitions do. Control goes on
only at executable addresses, and if all the places that it may go to are
known, then the block is recognised and keeps them. -/
theorem classifyBlock_sound {chain : Chain}
    (hrules : chain.rules = Rule.standard ∨ chain.rules = Rule.conditionalReturn :: Rule.standard)
    {s : Setting} (hstyle : s.recognizers = style.recognizers s.machine)
    (hdefs : s.defs.Typed types) {b : Block} {regs : RegFile} (hexit : b.exit = .fetch regs)
    (hstmts : ∀ stmt ∈ b.stmts, ∀ v ∈ stmt.uses, v.Fits types)
    (hregs : regs.Typed s.machine types) {tally tally' : Tally} {block : FlowBlock}
    (h : chain.classifyBlock s b tally = (.ok block, tally')) :
    block.flow.regs? = some regs ∧
      (∀ ρ : Valuation, ρ.Models s types → block.flow.Holds style s ρ b.stmts) ∧
      block.successors = block.flow.continuations ∧
      (∀ a ∈ block.successors, s.image.isExecutable a = true) ∧
      (s.ipArms regs ≠ [] → (∀ v ∈ s.ipArms regs, ∃ a, v.executableAddress? s.image = some a) →
        (block.flow.kind ≠ .indirectJump ∧ block.flow.kind ≠ .unclassified) ∧
        ∀ v ∈ s.ipArms regs, ∀ a, v.executableAddress? s.image = some a →
          a ∈ block.successors ∨ a ∈ block.newFunctions ∨ s.abs v = .returnAddr ∨ a ∈ s.known) := by
  have hclassify : chain.classifyExit s b = .ok block := by
    rw [← classifyBlock_fst chain s b tally, h]
  have hc : Candidate.Typed types ⟨s, b.index, b.addr, b.stmts, regs⟩ := ⟨hdefs, hstmts, hregs⟩
  obtain hmatch | ⟨hmatch, hsuccessors, hflow⟩ := classifyExit_fetch hrules hexit hclassify
  · obtain ⟨found, heq, hexplained, hkept⟩ | ⟨hnone, -⟩ :=
      firstMatch_explained hc hstyle hrules hmatch
    · cases heq
      exact ⟨hexplained.regs, hexplained.holds, hexplained.successors, hexplained.executable,
        fun _ hknown => ⟨hexplained.recognised, hkept hknown⟩⟩
    · cases hnone
  · -- No rule has matched, so not every place is known.
    obtain ⟨found, heq, -⟩ | ⟨-, hunknown⟩ := firstMatch_explained hc hstyle hrules hmatch
    · cases heq
    · have hexecutable : ∀ a ∈ block.successors, s.image.isExecutable a = true := by
        rw [hsuccessors]
        exact fun a ha => absurd ha List.not_mem_nil
      obtain hflow | ⟨reason, hflow⟩ := hflow <;>
        exact ⟨hflow ▸ rfl, fun ρ _ => hflow ▸ trivial, hflow ▸ hsuccessors, hexecutable,
          fun hsome hknown => absurd hknown (hunknown hsome)⟩

/-- A machine that calls through the stack. -/
def pushMachine : Machine where
  name := "push"
  addrWidth := 64
  order := .little
  registers := [.word64 "ip", .word64 "sp"]
  ip := 0
  sp := 1

/-- Sixteen bytes of code, and nothing recorded. -/
def pushSetting : Setting where
  machine := pushMachine
  image := .ofCode .little 0x1000 (List.replicate 16 0)
  defs := {}
  recognizers := .stacked pushMachine
  abs := fun v => if v = .returnAddr 64 then .returnAddr else .other
  feasible := .ofCondition
  known := []

/-- The stack pointer is lost, and so is the address that is stored to. -/
def pushBlock : Block where
  index := 0
  addr := 0x1000
  stmts := [.instruction 0x1000 4, .store (.clobbered (.bv 64)) (.bv 64 0x1004)]
  exit := .fetch ⟨[.bv 64 0x1008, .clobbered (.bv 64)]⟩

/-- A valuation that respects the example, with everything at zero. -/
theorem models_pushSetting :
    (Valuation.zeros 0x1000).Models pushSetting (fun _ => .bv 64) where
  typed := Valuation.typed_zeros 0x1000
  places := by
    intro id seg hseg
    cases id with
    | zero =>
      cases hseg
      rfl
    | succ id => cases hseg
  satisfies := by
    intro id app h
    cases h
  returns := by
    intro v d hv hd
    have hv : v = .returnAddr 64 := by
      by_contra hne
      simp [pushSetting, hne] at hv
    subst hv
    cases hd
    exact ⟨64, 0, BitVec.allOnes 64, rfl, rfl, by decide⟩

/-- The block counts as a call, although its store need not go to where
the stack pointer is. -/
theorem classifyBlock_sound_push :
    ∃ block tally, Chain.standard.classifyBlock pushSetting pushBlock {} = (.ok block, tally) ∧
      block.flow = .call ⟨[.bv 64 0x1008, .clobbered (.bv 64)]⟩ 0x1004 ∧
      block.newFunctions = [0x1008] ∧
      block.flow.Holds .stacked pushSetting (.zeros 0x1000) pushBlock.stmts ∧
      ∃ d e, (Valuation.zeros 0x1000).Denotes (.clobbered (.bv 64)) d ∧
        (Valuation.zeros 0x1000).Denotes (.clobbered (.bv 64)) e ∧ d ≠ e := by
  have hstmts : ∀ stmt ∈ pushBlock.stmts, ∀ v ∈ stmt.uses, v.Fits fun _ => .bv 64 := by
    intro stmt hstmt v hv
    rcases List.mem_pair.1 hstmt with rfl | rfl
    · cases hv
    · rcases List.mem_pair.1 hv with rfl | rfl
      · trivial
      · exact (by decide : Word.keepLow 64 0x1004 = 0x1004)
  have hregs : RegFile.Typed pushSetting.machine (fun _ => .bv 64)
      ⟨[.bv 64 0x1008, .clobbered (.bv 64)]⟩ := by
    intro r v hv
    match r with
    | 0 =>
      cases hv
      exact ⟨rfl, (by decide : Word.keepLow 64 0x1008 = 0x1008)⟩
    | 1 =>
      cases hv
      exact ⟨rfl, trivial⟩
    | r + 2 => cases hv
  have hdefs : pushSetting.defs.Typed fun _ => .bv 64 :=
    ⟨fun _ _ h => (by cases h), fun _ _ h => (by cases h)⟩
  have hstyle : pushSetting.recognizers = CallStyle.stacked.recognizers pushMachine := rfl
  -- The answer is computed, and the theorem says what it is worth.
  have hview : (Chain.standard.classifyBlock pushSetting pushBlock {}).1.toOption.map
      (fun block => (block.flow, block.newFunctions)) =
      some (.call ⟨[.bv 64 0x1008, .clobbered (.bv 64)]⟩ 0x1004, [0x1008]) := by decide +kernel
  generalize hanswer : Chain.standard.classifyBlock pushSetting pushBlock {} = answer at hview
  obtain ⟨result, tally⟩ := answer
  cases result with
  | error e => cases hview
  | ok block =>
    obtain ⟨hflow, hnew⟩ := Prod.mk.inj (Option.some.inj hview)
    obtain ⟨-, hholds, -⟩ := classifyBlock_sound (Or.inl rfl) hstyle hdefs rfl hstmts hregs
      hanswer
    exact ⟨block, tally, rfl, hflow, hnew, hholds _ models_pushSetting, .bits 64 0, .bits 64 1,
      rfl, rfl, by decide⟩

end Chain

end FlowRecovery
