import FlowRecovery.Proofs.Explore
import FlowRecovery.Proofs.Scope
import FlowRecovery.Target.Arm
import FlowRecovery.Target.Ppc64
import FlowRecovery.Target.RiscV64
import FlowRecovery.Target.X8664
import Mathlib.Data.Option.Basic

/-!
# `FlowRecovery.Proofs.Scope.Classify`: classified blocks stay in scope

Classification may drop statements, such as the push of a call, and it
looks up the definition of the instruction pointer to find the condition
of a branch. Then the target may change the block, and it is pruned.
None of this brings in a value that is not known (`classified_scoped`),
provided that the parts which a target supplies leave definitions alone
(`Target.Faithful`). The targets of this library do (`targets_faithful`).
-/

set_option autoImplicit false

namespace FlowRecovery

/-! ### Changes that leave definitions alone -/

/-- The same assignments in the same order, and nothing read that is out
of scope. -/
structure Retains (before after : List Stmt) : Prop where
  assigns : assignments after = assignments before
  inScope : ∀ known, Scoped known before → Scoped known after

namespace Retains

variable {before after : List Stmt}

/-- Nothing has been changed. -/
theorem refl (stmts : List Stmt) : Retains stmts stmts := ⟨rfl, fun _ h => h⟩

/-- A statement that assigns nothing can be left out. -/
theorem drop (first : List Stmt) {s : Stmt} (rest : List Stmt) (hs : s.assignId? = none) :
    Retains (first ++ s :: rest) (first ++ rest) := by
  have hresult : s.result? = none := by
    cases s with
    | assign => cases hs
    | store | arch | instruction | comment => rfl
  refine ⟨by simp [assignments, hs], fun known h => ?_⟩
  obtain ⟨hfirst, -, hrest⟩ := Scoped.append_iff.1 h
  rw [hresult, Option.toList_none, List.append_nil] at hrest
  exact Scoped.append_iff.2 ⟨hfirst, hrest⟩

/-- The results stay, since they come from assignments. -/
theorem results_eq (h : Retains before after) : results after = results before := by
  rw [← results_assignments after, h.assigns, results_assignments]

end Retains

/-! ### Rules -/

/-- Recognizers keep all assignments. -/
structure Recognizers.Faithful (r : Recognizers) : Prop where
  call : ∀ img stmts regs kept ret, r.call img stmts regs = some (kept, ret) → Retains stmts kept
  ret : ∀ stmts regs abs kept, r.ret stmts regs abs = some kept → Retains stmts kept

/-- A rule keeps all assignments, and what its flow reads can be reached
from the registers through definitions. -/
def Rule.Faithful (r : Rule) : Prop :=
  ∀ c block, c.setting.recognizers.Faithful → r.apply c = .ok (some block) →
    Retains c.stmts block.stmts ∧
      ∀ scope, c.setting.defs.Closed scope → (∀ v ∈ c.regs.values, v.Known scope) →
        ∀ v ∈ block.flow.roots, v.Known scope

/-- The parts that a target supplies leave definitions alone, and nothing
is assigned at entry. -/
structure Target.Faithful (t : Target) : Prop where
  entry : ∀ e ∈ t.entryValues, e.2.assignId? = none
  recognizers : t.recognizers.Faithful
  rules : ∀ r ∈ t.chain.rules, r.Faithful
  amend : ∀ change, t.amend = some change →
    ∀ b, (change b).flow = b.flow ∧ Retains b.stmts (change b).stmts

/-- The condition of a choice is known where the instruction pointer
is. -/
theorem Candidate.known_of_ipChoice? {c : Candidate} {cond onTrue onFalse : Value}
    (h : c.ipChoice? = some (cond, onTrue, onFalse)) {scope : List Value}
    (hclosed : c.setting.defs.Closed scope) (hregs : ∀ v ∈ c.regs.values, v.Known scope) :
    cond.Known scope := by
  unfold Candidate.ipChoice? at h
  split at h
  · rename_i happ
    cases h
    obtain ⟨ip, hip, happ⟩ := Option.bind_eq_some_iff.1 happ
    have hrhs : c.setting.defs.rhs? ip = some (.app (.select cond onTrue onFalse)) := by
      unfold Definitions.app? at happ
      split at happ
      · rename_i a hrhs
        cases happ
        exact hrhs
      · cases happ
    exact hclosed.known_operand (hregs ip (List.mem_of_getElem? hip)) hrhs List.mem_cons_self
  · cases h

/-- A block that keeps its registers and reads one more known value. -/
theorem known_roots {regs : RegFile} {flow : Flow} {extra : List Value} {scope : List Value}
    (hroots : flow.roots = regs.values ++ extra) (hregs : ∀ v ∈ regs.values, v.Known scope)
    (hextra : ∀ v ∈ extra, v.Known scope) : ∀ v ∈ flow.roots, v.Known scope := by
  intro v hv
  rw [hroots, List.mem_append] at hv
  cases hv with
  | inl hreg => exact hregs v hreg
  | inr hmore => exact hextra v hmore

namespace Rule

/-- A branch keeps all statements, and reads the condition of the
choice. -/
theorem branch_faithful : branch.Faithful := by
  intro c block _ h
  simp only [branch, Except.ok.injEq] at h
  split at h
  · rename_i cond onTrue onFalse hchoice
    split at h
    · cases h
      refine ⟨.refl _, fun scope hclosed hregs => known_roots rfl hregs fun v hv => ?_⟩
      rw [List.mem_singleton.1 hv]
      exact c.known_of_ipChoice? hchoice hclosed hregs
    · cases h
  · cases h

/-- A call keeps what its recognizer keeps, and reads the registers. -/
theorem call_faithful : call.Faithful := by
  intro c block hrecognizers h
  simp only [call, Except.ok.injEq] at h
  split at h
  · rename_i kept returnAddr hcall
    cases h
    refine ⟨hrecognizers.call _ _ _ _ _ hcall, fun scope _ hregs => ?_⟩
    exact known_roots rfl hregs fun v hv => absurd hv List.not_mem_nil
  · cases h

/-- A return keeps what its recognizer keeps, and reads the registers. -/
theorem ret_faithful : ret.Faithful := by
  intro c block hrecognizers h
  simp only [ret, Except.ok.injEq] at h
  split at h
  · rename_i kept hret
    cases h
    refine ⟨hrecognizers.ret _ _ _ _ hret, fun scope _ hregs => ?_⟩
    exact known_roots rfl hregs fun v hv => absurd hv List.not_mem_nil
  · cases h

/-- A tail call keeps all statements, and reads the registers. -/
theorem tailCall_faithful : tailCall.Faithful := by
  intro c block _ h
  simp only [tailCall, Except.ok.injEq] at h
  split at h
  · split at h
    · cases h
      refine ⟨.refl _, fun scope _ hregs => ?_⟩
      exact known_roots rfl hregs fun v hv => absurd hv List.not_mem_nil
    · cases h
  · cases h

/-- A jump keeps all statements, and reads the registers. -/
theorem jump_faithful : jump.Faithful := by
  intro c block _ h
  simp only [jump, Except.ok.injEq] at h
  split at h
  · cases h
    refine ⟨.refl _, fun scope _ hregs => ?_⟩
    exact known_roots rfl hregs fun v hv => absurd hv List.not_mem_nil
  · cases h

/-- A conditional return keeps all statements, and reads the condition of
the choice. -/
theorem conditionalReturn_faithful : conditionalReturn.Faithful := by
  intro c block _ h
  simp only [conditionalReturn] at h
  split at h
  · cases h
  · rename_i cond onTrue onFalse hchoice
    -- Of the ways through this rule only the last one makes a block.
    split at h
    · cases h
    · split at h
      · cases h
      · split at h
        · cases h
        · split at h
          · cases h
          · cases h
            refine ⟨.refl _, fun scope hclosed hregs => known_roots rfl hregs fun v hv => ?_⟩
            rw [List.mem_singleton.1 hv]
            exact c.known_of_ipChoice? hchoice hclosed hregs

end Rule

/-! ### The targets of this library -/

/-- The last store is a store at its place. -/
theorem getElem?_of_lastStore? {stmts : List Stmt} {i : Nat} {addr value : Value}
    (h : lastStore? stmts = some (i, addr, value)) : stmts[i]? = some (.store addr value) := by
  obtain ⟨⟨s, j⟩, hmem, hs⟩ := List.exists_of_findSome?_eq_some h
  rw [List.mem_reverse, List.mem_zipIdx_iff_getElem?] at hmem
  cases s with
  | store addr' value' =>
    cases hs
    exact hmem
  | assign | arch | instruction | comment => cases hs

namespace Recognizers

/-- Calls and returns through a link register keep all statements. -/
theorem linked_faithful (m : Machine) : (linked m).Faithful where
  call := by
    intro img stmts regs kept ret h
    simp only [linked, linkCall, Option.bind_eq_bind, Option.bind_eq_some_iff] at h
    obtain ⟨_, -, _, -, _, -, _, -, _, -, _, -, h⟩ := h
    cases h
    exact .refl _
  ret := by
    intro stmts regs abs kept h
    simp only [linked, ipReturn, Option.bind_eq_bind, Option.bind_eq_some_iff] at h
    obtain ⟨_, -, _, -, h⟩ := h
    cases h
    exact .refl _

/-- The push that is not kept assigns nothing. -/
theorem stacked_faithful (m : Machine) : (stacked m).Faithful where
  call := by
    intro img stmts regs kept ret h
    simp only [stacked, stackCall, Option.bind_eq_bind, Option.bind_eq_some_iff] at h
    -- Only the last store, the push of the return address, is left out.
    obtain ⟨_, -, ⟨i, addr, value⟩, hstore, _, -, _, -, _, -, h⟩ := h
    cases h
    have hget := getElem?_of_lastStore? hstore
    obtain ⟨hlt, hget⟩ := List.getElem?_eq_some_iff.1 hget
    have hsplit : stmts = stmts.take i ++ Stmt.store addr value :: stmts.drop (i + 1) := by
      rw [← hget, List.getElem_cons_drop, List.take_append_drop]
    have hdrop := Retains.drop (stmts.take i) (s := .store addr value) (stmts.drop (i + 1)) rfl
    rw [← hsplit] at hdrop
    rw [List.eraseIdx_eq_take_drop_succ]
    exact hdrop
  ret := (linked_faithful m).ret

end Recognizers

/-- The standard rules leave definitions alone. -/
theorem Rule.standard_faithful : ∀ r ∈ Rule.standard, r.Faithful := by
  intro r hr
  simp only [Rule.standard, List.mem_cons, List.not_mem_nil, or_false] at hr
  obtain rfl | rfl | rfl | rfl | rfl := hr
  · exact branch_faithful
  · exact call_faithful
  · exact ret_faithful
  · exact tailCall_faithful
  · exact jump_faithful

/-- So they do with conditional returns in front of them. -/
theorem Chain.withConditionalReturn_faithful :
    ∀ r ∈ Chain.withConditionalReturn.rules, r.Faithful := by
  intro r hr
  cases hr with
  | head => exact Rule.conditionalReturn_faithful
  | tail _ hr => exact Rule.standard_faithful r hr

/-- All targets of this library leave definitions alone. -/
theorem targets_faithful :
    ∀ t ∈ [Arm.target, Ppc64.target, RiscV64.target, X8664.target], t.Faithful := by
  intro t ht
  simp only [List.mem_cons, List.not_mem_nil, or_false] at ht
  obtain rfl | rfl | rfl | rfl := ht
  · exact ⟨by decide, Recognizers.linked_faithful _, Chain.withConditionalReturn_faithful, nofun⟩
  · exact ⟨by decide, Recognizers.linked_faithful _, Chain.withConditionalReturn_faithful, nofun⟩
  · exact ⟨by decide, Recognizers.linked_faithful _, Rule.standard_faithful, nofun⟩
  · exact ⟨by decide, Recognizers.stacked_faithful _, Rule.standard_faithful, nofun⟩

/-! ### Classifying, changing, pruning -/

namespace Chain

/-- The rule that matches first leaves definitions alone. Induction on the
rules. -/
theorem firstMatch_faithful {rules : List Rule} (hrules : ∀ r ∈ rules, r.Faithful) {c : Candidate}
    (hrecognizers : c.setting.recognizers.Faithful) {block : FlowBlock}
    (h : firstMatch c rules = .ok (some block)) :
    Retains c.stmts block.stmts ∧
      ∀ scope, c.setting.defs.Closed scope → (∀ v ∈ c.regs.values, v.Known scope) →
        ∀ v ∈ block.flow.roots, v.Known scope := by
  induction rules with
  | nil => cases h
  | cons r rest ih =>
    rw [firstMatch] at h
    cases happly : r.apply c with
    | error e =>
      rw [happly] at h
      cases h
    | ok answer =>
      rw [happly] at h
      cases answer with
      | none => exact ih (fun r hr => hrules r (List.mem_cons_of_mem _ hr)) h
      | some found =>
        cases h
        exact hrules r List.mem_cons_self c block hrecognizers happly

/-- So does a chain. Where no rule matches, its fallback reads the
registers. -/
theorem classify_faithful {chain : Chain} (hrules : ∀ r ∈ chain.rules, r.Faithful) {c : Candidate}
    (hrecognizers : c.setting.recognizers.Faithful) {block : FlowBlock}
    (h : chain.classify c = .ok block) :
    Retains c.stmts block.stmts ∧
      ∀ scope, c.setting.defs.Closed scope → (∀ v ∈ c.regs.values, v.Known scope) →
        ∀ v ∈ block.flow.roots, v.Known scope := by
  rw [classify] at h
  cases hmatch : firstMatch c chain.rules with
  | error e =>
    rw [hmatch] at h
    cases h
  | ok answer =>
    rw [hmatch] at h
    cases answer with
    | some found =>
      cases h
      exact firstMatch_faithful hrules hrecognizers hmatch
    | none =>
      have h : (if chain.indirectFallback = true then
          Except.ok (c.withFlow (.indirectJump c.regs))
        else Except.error (ClassifyError.noRuleMatched chain.rules.length)) = Except.ok block := h
      split at h
      · cases h
        refine ⟨.refl _, fun scope _ hregs => ?_⟩
        exact known_roots rfl hregs fun v hv => absurd hv List.not_mem_nil
      · cases h

/-- What classification makes of an exit: a split keeps its meaning, and no
statement that defines something is lost. -/
theorem classifyExit_retains {chain : Chain} (hrules : ∀ r ∈ chain.rules, r.Faithful) {s : Setting}
    (hrecognizers : s.recognizers.Faithful) {b : Block} {found : FlowBlock}
    (h : chain.classifyExit s b = .ok found) :
    Retains b.stmts found.stmts ∧
      (∀ cond t f, b.exit = .branch cond t f → found.flow = .innerBranch cond t f) ∧
      ∀ scope, s.defs.Closed scope → (∀ v ∈ b.exit.values, v.Known scope) →
        ∀ v ∈ found.flow.roots, v.Known scope := by
  obtain ⟨index, addr, stmts, exit⟩ := b
  cases exit with
  | branch cond t f =>
    cases h
    refine ⟨.refl _, fun _ _ _ heq => ?_, fun _ _ hexit => hexit⟩
    cases heq
    rfl
  | failed regs at_ reason =>
    cases h
    refine ⟨.refl _, fun _ _ _ heq => ?_, fun scope _ hexit => ?_⟩
    · cases heq
    · exact known_roots rfl hexit fun v hv => absurd hv List.not_mem_nil
  | arch regs name args =>
    cases h
    refine ⟨.refl _, fun _ _ _ heq => ?_, fun _ _ hexit => hexit⟩
    cases heq
  | fetch regs =>
    -- Only an exit that fetches the next instruction goes through the rules.
    have hother : ∀ cond t f, Exit.fetch regs = .branch cond t f →
        found.flow = .innerBranch cond t f := nofun
    cases hclassify : chain.classify { setting := s, index, addr, stmts, regs } with
    | ok block =>
      simp only [classifyExit, hclassify, Except.ok.injEq] at h
      obtain ⟨hretains, hroots⟩ := classify_faithful hrules hrecognizers hclassify
      rw [h] at hretains hroots
      exact ⟨hretains, hother, hroots⟩
    | error e =>
      cases e with
      | noRuleMatched tried =>
        simp only [classifyExit, hclassify, Except.ok.injEq] at h
        rw [← h] at hother ⊢
        refine ⟨.refl _, hother, fun scope _ hexit => ?_⟩
        exact known_roots rfl hexit fun v hv => absurd hv List.not_mem_nil
      | notExecutable | infeasibleBranch =>
        simp only [classifyExit, hclassify, reduceCtorEq] at h

/-- A scoped block is scoped after classification. -/
theorem classifyExit_scoped {chain : Chain} (hrules : ∀ r ∈ chain.rules, r.Faithful) {s : Setting}
    (hrecognizers : s.recognizers.Faithful) {b : Block} {found : FlowBlock}
    (h : chain.classifyExit s b = .ok found) {known : List Value} (hb : b.Scoped known)
    (hclosed : s.defs.Closed (known ++ results b.stmts)) : found.Scoped known := by
  obtain ⟨hretains, -, hroots⟩ := classifyExit_retains hrules hrecognizers h
  refine ⟨hretains.inScope known hb.stmts, ?_⟩
  rw [hretains.results_eq]
  exact hroots _ hclosed hb.exit

end Chain

namespace Explore

variable {task : Task} {known : List Value}

/-- The target's last change leaves flow and definitions alone. -/
theorem exists_amended (htarget : task.target.Faithful) (b : FlowBlock) :
    ∃ amended, (task.target.amend.getD id) b = amended ∧
      amended.flow = b.flow ∧ Retains b.stmts amended.stmts := by
  cases hamend : task.target.amend with
  | none => exact ⟨b, rfl, rfl, .refl _⟩
  | some change =>
    obtain ⟨hflow, hretains⟩ := htarget.amend change hamend b
    exact ⟨change b, rfl, hflow, hretains⟩

/-- The flow of a block is what classification has made of it. -/
theorem finish_flow (htarget : task.target.Faithful) (b : FlowBlock) :
    (finish task b).flow = b.flow := by
  obtain ⟨amended, hamended, hflow, -⟩ := exists_amended htarget b
  rw [finish, hamended, pruneBlock, ← hflow]
  split <;> rfl

/-- What the target's last change and pruning leave of a block. A block
that splits keeps all of its results. -/
theorem finish_scoped (htarget : task.target.Faithful) {b : FlowBlock} (h : b.Scoped known) :
    (finish task b).Scoped known ∧
      (∀ cond t f, b.flow = .innerBranch cond t f →
        results (finish task b).stmts = results b.stmts) ∧
      (assignments (finish task b).stmts).Sublist (assignments b.stmts) := by
  obtain ⟨amended, hamended, hflow, hretains⟩ := exists_amended htarget b
  -- A change that keeps flow and definitions keeps the block in scope.
  have hscoped : amended.Scoped known := by
    refine ⟨hretains.inScope known h.stmts, ?_⟩
    rw [hflow, hretains.results_eq]
    exact h.roots
  rw [finish, hamended, pruneBlock, ← hretains.assigns]
  split
  · exact ⟨hscoped, fun _ _ _ _ => hretains.results_eq, .refl _⟩
  · rename_i hnosplit
    have hsublist := prune_sublist task.target.effects amended.flow.roots amended.stmts
    obtain ⟨hstmts, hroots⟩ := hscoped.stmts.prune task.target.effects hscoped.roots
    refine ⟨⟨hstmts, hroots⟩, ?_, hsublist.filter _⟩
    intro cond t f hinner
    exact absurd (hflow.trans hinner) (hnosplit cond t f)

/-- A block that is recorded was classified, and finished after that. -/
theorem exists_of_classified? {defs : Definitions} {b : Block} {found : FlowBlock}
    (h : classified? task defs b = some found) :
    ∃ block, task.target.chain.classifyExit (task.setting defs) b = .ok block ∧
      found = finish task block := by
  obtain ⟨block, hblock, rfl⟩ := Option.map_eq_some_iff.1 h
  refine ⟨block, ?_, rfl⟩
  cases hresult : task.target.chain.classifyExit (task.setting defs) b with
  | error e =>
    rw [hresult] at hblock
    cases hblock
  | ok block' =>
    rw [hresult] at hblock
    cases hblock
    rfl

/-- A block as it is recorded is scoped. It has no assignments but those
of the run's block, and all that the run's later blocks may read. -/
theorem classified_scoped (htarget : task.target.Faithful) {defs : Definitions} {b : Block}
    {found : FlowBlock} (h : classified? task defs b = some found) (hb : b.Scoped known)
    (hclosed : defs.Closed (known ++ results b.stmts)) :
    found.Scoped known ∧ b.passedOn ⊆ results found.stmts ∧
      (assignments found.stmts).Sublist (assignments b.stmts) := by
  obtain ⟨block, hclassify, rfl⟩ := exists_of_classified? h
  obtain ⟨hretains, hsplit, -⟩ :=
    Chain.classifyExit_retains htarget.rules htarget.recognizers hclassify
  have hscoped := Chain.classifyExit_scoped htarget.rules htarget.recognizers hclassify hb hclosed
  obtain ⟨hfinished, hinner, hsub⟩ := finish_scoped htarget hscoped
  refine ⟨hfinished, ?_, hretains.assigns ▸ hsub⟩
  -- Only a split block passes something on, and it is not pruned.
  unfold Block.passedOn
  split
  · rename_i cond t f hexit
    rw [hinner cond t f (hsplit cond t f hexit), hretains.results_eq]
    exact List.Subset.refl _
  · exact List.nil_subset _

/-- What the flow of a recorded block reads is known where its exit and the
definitions are. -/
theorem classified_known (htarget : task.target.Faithful) {defs : Definitions} {b : Block}
    {found : FlowBlock} (h : classified? task defs b = some found) {scope : List Value}
    (hclosed : defs.Closed scope) (hexit : ∀ v ∈ b.exit.values, v.Known scope) :
    ∀ v ∈ found.flow.roots, v.Known scope := by
  obtain ⟨block, hclassify, rfl⟩ := exists_of_classified? h
  rw [finish_flow htarget]
  exact (Chain.classifyExit_retains htarget.rules htarget.recognizers hclassify).2.2 scope hclosed
    hexit

end Explore

end FlowRecovery
