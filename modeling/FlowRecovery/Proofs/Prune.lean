import FlowRecovery.Proofs.Runtime
import FlowRecovery.Proofs.Scope

/-!
# `FlowRecovery.Proofs.Prune`: pruning keeps what can be observed

What can be observed of a run are the memory it ends with, the effects on
the way and the data of some roots (`Runtime.Observes`). A pruned list
can be run to exactly the same observations as the list itself
(`observes_prune`), whatever the memory, the primitives and the
clobbered values are.

The two runs go through states that need not be equal: they agree on
everything but the results of assignments that nobody demands
(`Agree demanded`). Two facts about one step carry this to the end of the
list. A statement takes states that agree on what it reads to states that
still agree (`Agree.steps`), and a statement that is not live goes from a
state to one that agrees with it (`agree_of_dead`).
-/

set_option autoImplicit false

namespace FlowRecovery

namespace Runtime

variable {R : Runtime} {effects : Effects}

/-- Running the statements can end with this memory, these effects and
these data for the roots. -/
def Observes (R : Runtime) (effects : Effects) (stmts : List Stmt) (roots : List Value)
    (c : R.State) (memory : R.Memory) (trace : List Action) (data : List Datum) : Prop :=
  ∃ c', Runs (R.Steps effects) stmts c c' ∧ c'.memory = memory ∧ c'.trace = trace ∧
    List.Forall₂ (R.Reads c'.values) roots data

/-! ### Agreement on what is demanded -/

/-- The value is not the result of an assignment, or of a demanded
one. -/
def Demanded (demanded : List AssignId) (v : Value) : Prop :=
  ∀ id, v.assignId? = some id → id ∈ demanded

/-- The states differ at most in the results of assignments that are not
demanded. -/
structure Agree (demanded : List AssignId) (c c' : R.State) : Prop where
  memory : c'.memory = c.memory
  trace : c'.trace = c.trace
  base : c'.values.base = c.values.base
  symbol : ∀ v, Demanded demanded v → c'.values.symbol v = c.values.symbol v

namespace Agree

variable {demanded fewer : List AssignId} {c c' c'' : R.State}

/-- A state agrees with itself. -/
theorem refl (demanded : List AssignId) (c : R.State) : Agree demanded c c :=
  ⟨rfl, rfl, rfl, fun _ _ => rfl⟩

/-- Agreement goes both ways. -/
theorem symm (h : Agree demanded c c') : Agree demanded c' c :=
  ⟨h.memory.symm, h.trace.symm, h.base.symm, fun v hv => (h.symbol v hv).symm⟩

/-- It is transitive. -/
theorem trans (h : Agree demanded c c') (h' : Agree demanded c' c'') : Agree demanded c c'' :=
  ⟨h'.memory.trans h.memory, h'.trace.trans h.trace, h'.base.trans h.base,
    fun v hv => (h'.symbol v hv).trans (h.symbol v hv)⟩

/-- The fewer are demanded, the less there is to agree on. -/
theorem mono (h : Agree demanded c c') (hsub : fewer ⊆ demanded) : Agree fewer c c' :=
  ⟨h.memory, h.trace, h.base, fun v hv => h.symbol v fun id hid => hsub (hv id hid)⟩

/-- A demanded value is the same datum in both states. -/
theorem denote (h : Agree demanded c c') {v : Value} (hv : Demanded demanded v) :
    c'.values.denote v = c.values.denote v := by
  cases v with
  | bool | bv => rfl
  | reloc segment offset width => simp only [Valuation.denote, h.base]
  | initial | returnAddr | clobbered | assign => exact h.symbol _ hv

/-- What can be read for it is the same. -/
theorem reads (h : Agree demanded c c') {v : Value} (hv : Demanded demanded v) {d : Datum}
    (hd : R.Reads c.values v d) : R.Reads c'.values v d := by
  cases v with
  | clobbered ty => exact hd
  | bool | bv | reloc | initial | returnAddr | assign => exact Eq.trans hd (h.denote hv).symm

/-- So is what can be read for a list of them. -/
theorem forall₂_reads (h : Agree demanded c c') {vs : List Value}
    (hvs : ∀ v ∈ vs, Demanded demanded v) {data : List Datum}
    (hdata : List.Forall₂ (R.Reads c.values) vs data) :
    List.Forall₂ (R.Reads c'.values) vs data := by
  induction hdata with
  | nil => exact .nil
  | @cons v d rest _ hd _ ih =>
    exact .cons (h.reads (hvs v List.mem_cons_self) hd)
      (ih fun u hu => hvs u (List.mem_cons_of_mem v hu))

/-- So is what an application computes, if its operands are demanded. -/
theorem computes (h : Agree demanded c c') {a : App} (ha : ∀ v ∈ a.operands, Demanded demanded v)
    {result : Option Datum} (hresult : R.Computes c.values a result) :
    R.Computes c'.values a result := by
  cases hresult with
  | unary hx => exact .unary (h.reads (ha _ (by simp [App.operands])) hx)
  | binary hx hy =>
    exact .binary (h.reads (ha _ (by simp [App.operands])) hx)
      (h.reads (ha _ (by simp [App.operands])) hy)
  | ext hx => exact .ext (h.reads (ha _ (by simp [App.operands])) hx)
  | select hc hx hy =>
    exact .select (h.reads (ha _ (by simp [App.operands])) hc)
      (h.reads (ha _ (by simp [App.operands])) hx) (h.reads (ha _ (by simp [App.operands])) hy)

/-! Doing the same on both sides keeps them in agreement. -/

/-- Naming a result, demanded or not. -/
theorem assign (h : Agree demanded c c') (id : AssignId) (ty : Ty) (d : Datum) :
    Agree demanded (c.assign id ty d) (c'.assign id ty d) := by
  refine ⟨h.memory, h.trace, h.base, fun v hv => ?_⟩
  show (if v = .assign id ty then d else c'.values.symbol v) =
    if v = .assign id ty then d else c.values.symbol v
  rw [h.symbol v hv]

/-- Writing down an action. -/
theorem note (h : Agree demanded c c') (a : Action) : Agree demanded (c.note a) (c'.note a) :=
  ⟨h.memory, congrArg (· ++ [a]) h.trace, h.base, h.symbol⟩

/-- Replacing the memory. -/
theorem withMemory (h : Agree demanded c c') (memory : R.Memory) :
    Agree demanded { c with memory } { c' with memory } :=
  ⟨rfl, h.trace, h.base, h.symbol⟩

/-- Loading from memory, which is the same on both sides. -/
theorem load (h : Agree demanded c c') (id : AssignId) (ty : Ty) (addr : Datum) (bytes : Nat) :
    Agree demanded (c.load id ty addr bytes) (c'.load id ty addr bytes) := by
  unfold State.load
  rw [h.memory]
  exact (h.note _).assign id ty _

/-- Storing to it. -/
theorem store (h : Agree demanded c c') (addr value : Datum) :
    Agree demanded (c.store addr value) (c'.store addr value) := by
  unfold State.store
  rw [h.memory]
  exact (h.withMemory _).note _

/-- Calling a primitive, which may change the memory. -/
theorem prim (h : Agree demanded c c') (id : AssignId) (ty : Ty) (p : Prim) (args : List Datum) :
    Agree demanded (c.prim effects id ty p args) (c'.prim effects id ty p args) := by
  unfold State.prim
  rw [h.memory]
  split
  · exact ((h.withMemory _).assign id ty _).note _
  · exact (h.withMemory _).assign id ty _

/-- Carrying out a statement of the machine, which may change it too. -/
theorem arch (h : Agree demanded c c') (name : String) (args : List Value) (data : List Datum) :
    Agree demanded (c.arch effects name args data) (c'.arch effects name args data) := by
  unfold State.arch
  rw [h.memory]
  split
  · exact (h.withMemory _).note _
  · exact h.withMemory _

/-- A statement whose reads are all demanded can do the same from a state
that agrees. -/
theorem steps (h : Agree demanded c c') {s : Stmt} (hs : ∀ v ∈ s.uses, Demanded demanded v)
    {c₁ : R.State} (hstep : R.Steps effects s c c₁) :
    ∃ c₁', R.Steps effects s c' c₁' ∧ Agree demanded c₁ c₁' := by
  cases hstep with
  | app hresult => exact ⟨_, .app (h.computes hs hresult), h.assign _ _ _⟩
  | load ha => exact ⟨_, .load (h.reads (hs _ List.mem_cons_self) ha), h.load _ _ _ _⟩
  | prim hdata => exact ⟨_, .prim (h.forall₂_reads hs hdata), h.prim _ _ _ _⟩
  | store ha hx =>
    refine ⟨_, .store (h.reads (hs _ List.mem_cons_self) ha) (h.reads (hs _ ?_) hx), h.store _ _⟩
    exact List.mem_cons_of_mem _ List.mem_cons_self
  | arch hdata => exact ⟨_, .arch (h.forall₂_reads hs hdata), h.arch _ _ _⟩
  | instruction => exact ⟨_, .instruction, h.note _⟩
  | comment => exact ⟨_, .comment, h.note _⟩

end Agree

/-! ### Statements that are not live -/

/-- The result of an assignment that is not demanded makes no
difference. -/
theorem agree_assign {demanded : List AssignId} {id : AssignId} (hid : id ∉ demanded)
    (c : R.State) (ty : Ty) (d : Datum) : Agree demanded c (c.assign id ty d) := by
  refine ⟨rfl, rfl, rfl, fun v hv => if_neg ?_⟩
  rintro rfl
  exact hid (hv id rfl)

/-- A statement that is not live leaves behind a state that agrees with
the one before it. -/
theorem agree_of_dead (hR : R.Respects effects) {demanded : List AssignId} {s : Stmt}
    (hdead : ¬ s.isLive effects demanded = true) {c c₁ : R.State}
    (hstep : R.Steps effects s c c₁) : Agree demanded c c₁ := by
  have hnone : effects.has s = false := by
    cases hhas : effects.has s with
    | false => rfl
    | true => exact absurd (Stmt.isLive_iff.2 (.inl hhas)) hdead
  -- Only applications, pure primitives and idle machine statements are not effects.
  cases hstep with
  | app => exact agree_assign (not_mem_pruneSweep_of_not_isLive hdead) c _ _
  | @prim _ id ty p data =>
    have hp : effects.ofPrim p = false := hnone
    have hmemory := hR.prim p hp c.memory data
    simp only [State.prim, hp, Bool.false_eq_true, if_false, hmemory]
    exact agree_assign (not_mem_pruneSweep_of_not_isLive hdead) c _ _
  | @arch _ name args data =>
    have harch : effects.ofStmt name args = false := hnone
    simp only [State.arch, harch, Bool.false_eq_true, if_false, hR.arch name args harch]
    exact .refl demanded c
  | load | store | instruction | comment => cases hnone

/-! ### The sweep -/

/-- What a statement reads is demanded before it. -/
theorem demanded_uses (s : Stmt) (after : List AssignId) :
    ∀ v ∈ s.uses, Demanded (s.usedIds ++ after) v := by
  intro v hv id hid
  exact List.mem_append_left _ (List.mem_filterMap.2 ⟨v, hv, hid⟩)

/-- Every run of the list has a run of the pruned list that agrees with
it at the end on the roots. -/
theorem Agree.runs_prune (hR : R.Respects effects) {roots : List Value} {stmts : List Stmt}
    {c c' d : R.State} (h : Agree (pruneSweep effects roots stmts).1 c d)
    (hruns : Runs (R.Steps effects) stmts c c') :
    ∃ d', Runs (R.Steps effects) (prune effects roots stmts) d d' ∧
      Agree (roots.filterMap Value.assignId?) c' d' := by
  -- The states agree on all that is demanded of the rest; at the end those are the roots.
  induction hruns generalizing d with
  | nil => exact ⟨d, .nil, h⟩
  | @cons s rest c c₁ c' hstep _ ih =>
    -- The first statement is live and both runs take it, or only the full run does.
    rw [prune_cons]
    by_cases hlive : s.isLive effects (pruneSweep effects roots rest).1 = true
    · rw [pruneSweep_cons_of_live hlive] at h
      rw [if_pos hlive]
      obtain ⟨d₁, hstep', h₁⟩ := h.steps (demanded_uses s _) hstep
      obtain ⟨d', hruns', h'⟩ := ih (h₁.mono (List.subset_append_right _ _))
      exact ⟨d', .cons hstep' hruns', h'⟩
    · rw [pruneSweep_cons_of_dead hlive] at h
      rw [if_neg hlive]
      exact ih ((agree_of_dead hR hlive hstep).symm.trans h)

/-- Every run of the pruned list comes from a run of the list: what was
removed can always be run. -/
theorem Agree.runs_of_prune (hR : R.Respects effects) {roots : List Value} {stmts : List Stmt}
    {c d d' : R.State} (h : Agree (pruneSweep effects roots stmts).1 d c)
    (hruns : Runs (R.Steps effects) (prune effects roots stmts) d d') :
    ∃ c', Runs (R.Steps effects) stmts c c' ∧
      Agree (roots.filterMap Value.assignId?) d' c' := by
  -- The induction is on the list, since the pruned run does not show what was removed.
  induction stmts generalizing c d with
  | nil =>
    cases hruns
    exact ⟨c, .nil, h⟩
  | cons s rest ih =>
    rw [prune_cons] at hruns
    by_cases hlive : s.isLive effects (pruneSweep effects roots rest).1 = true
    · rw [pruneSweep_cons_of_live hlive] at h
      rw [if_pos hlive] at hruns
      cases hruns with
      | cons hstep hruns =>
        obtain ⟨c₁, hstep', h₁⟩ := h.steps (demanded_uses s _) hstep
        obtain ⟨c', hruns', h'⟩ := ih (h₁.mono (List.subset_append_right _ _)) hruns
        exact ⟨c', .cons hstep' hruns', h'⟩
    · -- The pruned run does nothing here; the full run can take the step anyway.
      rw [pruneSweep_cons_of_dead hlive] at h
      rw [if_neg hlive] at hruns
      obtain ⟨c₁, hstep⟩ := exists_steps effects s c
      obtain ⟨c', hruns', h'⟩ := ih (h.trans (agree_of_dead hR hlive hstep)) hruns
      exact ⟨c', .cons hstep hruns', h'⟩

/-- States that agree on the roots look the same. -/
theorem Agree.observes {roots : List Value} {c c' : R.State}
    (h : Agree (roots.filterMap Value.assignId?) c c') {memory : R.Memory} {trace : List Action}
    {data : List Datum} (hmemory : c.memory = memory) (htrace : c.trace = trace)
    (hdata : List.Forall₂ (R.Reads c.values) roots data) :
    c'.memory = memory ∧ c'.trace = trace ∧ List.Forall₂ (R.Reads c'.values) roots data := by
  refine ⟨h.memory.trans hmemory, h.trace.trans htrace, h.forall₂_reads ?_ hdata⟩
  intro v hv id hid
  exact List.mem_filterMap.2 ⟨v, hv, hid⟩

/-- Every list can be run to its end, and every root be read there. -/
theorem exists_observes (stmts : List Stmt) (roots : List Value) (c : R.State) :
    ∃ memory trace data, R.Observes effects stmts roots c memory trace data := by
  obtain ⟨c', hruns⟩ := exists_runs effects stmts c
  obtain ⟨data, hdata⟩ := exists_forall₂_reads (R := R) c'.values roots
  exact ⟨_, _, data, c', hruns, rfl, rfl, hdata⟩

/-- Where clobbered values are fixed, there is one thing to observe. -/
theorem Fixed.observes (hfixed : R.Fixed) {stmts : List Stmt} {roots : List Value} {c : R.State}
    {memory memory' : R.Memory} {trace trace' : List Action} {data data' : List Datum}
    (h : R.Observes effects stmts roots c memory trace data)
    (h' : R.Observes effects stmts roots c memory' trace' data') :
    memory' = memory ∧ trace' = trace ∧ data' = data := by
  obtain ⟨c₁, hruns, rfl, rfl, hdata⟩ := h
  obtain ⟨c₂, hruns', rfl, rfl, hdata'⟩ := h'
  cases hfixed.runs hruns hruns'
  exact ⟨rfl, rfl, hfixed.forall₂_reads hdata hdata'⟩

/-- Removing what is not live takes nothing away from what can be
observed and adds nothing to it. -/
theorem observes_prune (hR : R.Respects effects) {stmts : List Stmt} {roots : List Value}
    {c : R.State} {memory : R.Memory} {trace : List Action} {data : List Datum} :
    R.Observes effects (prune effects roots stmts) roots c memory trace data ↔
      R.Observes effects stmts roots c memory trace data := by
  constructor
  · rintro ⟨c', hruns, hmemory, htrace, hdata⟩
    obtain ⟨d', hruns', h⟩ := (Agree.refl _ c).runs_of_prune hR hruns
    exact ⟨d', hruns', h.observes hmemory htrace hdata⟩
  · rintro ⟨c', hruns, hmemory, htrace, hdata⟩
    obtain ⟨d', hruns', h⟩ := (Agree.refl _ c).runs_prune hR hruns
    exact ⟨d', hruns', h.observes hmemory htrace hdata⟩

/-- A pruned list and the list itself can be observed to do the same, and
there is always something to observe. Where clobbered values are fixed
there is only one thing, and it is the same for both. -/
theorem prune_observes_iff (R : Runtime) (effects : Effects) (hR : R.Respects effects)
    (stmts : List Stmt) (roots : List Value) (c : R.State) :
    (∀ memory trace data,
      R.Observes effects (prune effects roots stmts) roots c memory trace data ↔
        R.Observes effects stmts roots c memory trace data) ∧
    (∃ memory trace data, R.Observes effects stmts roots c memory trace data) ∧
    (R.Fixed → ∀ memory trace data memory' trace' data',
      R.Observes effects (prune effects roots stmts) roots c memory trace data →
        R.Observes effects stmts roots c memory' trace' data' →
          memory' = memory ∧ trace' = trace ∧ data' = data) := by
  refine ⟨fun _ _ _ => observes_prune hR, exists_observes stmts roots c, ?_⟩
  intro hfixed memory trace data memory' trace' data' h h'
  exact hfixed.observes ((observes_prune hR).1 h) h'

/-- The memory is a journal of what was written to it. Reading it counts
the entries, and impure primitives and machine statements add one. -/
def journal : Runtime where
  Memory := List (List Datum)
  load memory _ bytes := BitVec.ofNat (bytes * 8) memory.length
  store memory addr value := memory ++ [[addr, value]]
  prim memory p args :=
    (Datum.someOf p.ty, if p.isPure then memory else memory ++ [args])
  arch memory _ _ data := memory ++ [data]
  undef ty d := d = .ofTy ty
  ty_undef ty d h := by rw [h, Datum.ty_ofTy]
  exists_undef ty := ⟨_, rfl⟩

/-- Only pure primitives have no effect here, and they leave the journal
alone. -/
theorem respects_journal : journal.Respects .standard where
  prim p hp memory args := if_pos (by simpa [Effects.standard] using hp)
  arch _ _ h := by cases h

/-- The second assignment is read by the third alone, and the third by
nobody. -/
def idleChain : List Stmt :=
  [.assign 0 (.bv 8) (.app (.binary .add (.initial 1 (.bv 8)) (.clobbered (.bv 8)))),
    .assign 1 (.bv 8) (.app (.unary .not (.assign 0 (.bv 8)))),
    .assign 2 (.bv 8) (.prim ⟨"parity", [.assign 1 (.bv 8)], .bv 8, true⟩),
    .assign 3 (.bv 8) (.prim ⟨"input", [.assign 0 (.bv 8)], .bv 8, false⟩),
    .store (.initial 4 (.bv 64)) (.assign 3 (.bv 8))]

/-- What is demanded by nobody is removed, together with what only it
demands. Both lists are observed to do the same. -/
theorem prune_observes_iff_idleChain :
    journal.Respects .standard ∧ journal.Fixed ∧
    (prune .standard [.assign 0 (.bv 8)] idleChain).filterMap Stmt.assignId? = [0, 3] ∧
    ∀ memory trace data memory' trace' data',
      journal.Observes .standard (prune .standard [.assign 0 (.bv 8)] idleChain)
        [.assign 0 (.bv 8)] ⟨.zeros 0, [], []⟩ memory trace data →
      journal.Observes .standard idleChain [.assign 0 (.bv 8)] ⟨.zeros 0, [], []⟩
        memory' trace' data' → memory' = memory ∧ trace' = trace ∧ data' = data := by
  have hfixed : journal.Fixed := fun _ _ _ h h' => Eq.trans h' (Eq.symm h)
  refine ⟨respects_journal, hfixed, by decide, ?_⟩
  exact (prune_observes_iff journal .standard respects_journal idleChain [.assign 0 (.bv 8)]
    ⟨.zeros 0, [], []⟩).2.2 hfixed

end Runtime

end FlowRecovery
