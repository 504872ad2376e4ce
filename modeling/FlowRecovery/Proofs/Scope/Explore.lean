import FlowRecovery.Proofs.Runs
import FlowRecovery.Proofs.Scope.Classify
import FlowRecovery.Proofs.Scope.Disassembly

/-!
# `FlowRecovery.Proofs.Scope.Explore`: no value is left without its definition

The blocks of a function are pruned one at a time, each against its own
exit. Their values still flow on: into the runs that start where they
end, into the arms of a split, and through the stack pointer that a call
leaves behind. This file shows that nothing which is still read has been
removed (`function_defines_uses`): every assigned value in a discovered
function is assigned by exactly one statement, earlier in the same block
or in an earlier block.

The invariant is `Progress.Rooted`. It holds of what has been discovered
and of the registers that wait in the queue, and one run preserves it
(`visit_rooted`). Recipes have to keep to their own paths: one that returns
to a checkpoint it has given up can leave a result behind that nothing
assigns (`function_holds_undone_result`).
-/

set_option autoImplicit false

namespace FlowRecovery

/-! ### Registers on the way to a successor -/

/-- Undoing a move of the stack pointer brings back an operand of its
definition. -/
theorem Definitions.Closed.adjustStack {d : Definitions} {scope : List Value} (h : d.Closed scope)
    {v : Value} (hv : v.Known scope) (delta : Int) : (d.adjustStack v delta).Known scope := by
  have hoperand {a : App} {u : Value} (happ : d.app? v = some a) (hu : u ∈ a.operands) :
      u.Known scope := by
    unfold Definitions.app? at happ
    split at happ
    · rename_i a' hrhs
      cases happ
      exact h.known_operand hv hrhs hu
    · cases happ
  -- A literal is moved and anything unknown is lost. Only where an earlier
  -- move is undone does a name come up, and it is an operand.
  obtain ⟨-, hstays⟩ | ⟨width, w, -, hmoved⟩ | ⟨width, -, happ | happ⟩ | hlost :=
    Definitions.adjustStack_cases (rfl : d.adjustStack v delta = _)
  · rw [hstays]
    exact hv
  · rw [hmoved]
    exact Or.inl rfl
  · exact hoperand happ List.mem_cons_self
  · exact hoperand happ List.mem_cons_self
  · rw [hlost]
    exact Or.inl rfl

/-- After a call a register holds a literal, is lost, or holds what it did.
Only the stack pointer is worked out. -/
theorem Machine.afterCall_known (m : Machine) {d : Definitions} {scope : List Value}
    (h : d.Closed scope) (returnAddr : Word) (r : Reg) {v : Value} (hv : v.Known scope) :
    (m.afterCall d returnAddr r v).Known scope := by
  unfold Machine.afterCall
  split
  · exact Or.inl rfl
  · split
    · exact h.adjustStack hv _
    · split
      · exact hv
      · exact Or.inl rfl

/-- The registers after a call are known where those before it are. -/
theorem Machine.postCallRegs_known (m : Machine) {d : Definitions} {scope : List Value}
    (h : d.Closed scope) (returnAddr : Word) {regs : RegFile}
    (hregs : ∀ v ∈ regs.values, v.Known scope) :
    ∀ v ∈ (m.postCallRegs d regs returnAddr).values, v.Known scope := by
  intro v hv
  obtain ⟨i, hi, rfl⟩ := List.mem_mapIdx.1 hv
  have hheld := hregs _ (List.getElem_mem hi)
  dsimp only
  split
  · exact m.afterCall_known h returnAddr i hheld
  · exact hheld

/-- The registers at entry hold symbols and zeros. -/
theorem RegFile.symbolic_known (m : Machine) (scope : List Value) :
    ∀ v ∈ (RegFile.symbolic m).values, v.Known scope := by
  intro v hv
  obtain ⟨i, hi, rfl⟩ := List.mem_mapIdx.1 hv
  unfold RegFile.entryValue
  split
  · split
    · exact Or.inl rfl
    · exact Or.inl rfl
  · exact Or.inl rfl

/-- Writing a known value, if it fits. -/
theorem RegFile.setIfFits_known {scope : List Value} {regs : RegFile}
    (hregs : ∀ v ∈ regs.values, v.Known scope) (r : Reg) {v : Value} (hv : v.Known scope) :
    ∀ u ∈ (regs.setIfFits r v).values, u.Known scope := by
  intro u hu
  unfold RegFile.setIfFits at hu
  split at hu
  · rename_i regs' hset
    cases Build.mem_of_set hset hu with
    | inl hheld => exact hregs u hheld
    | inr hnew => exact hnew ▸ hv
  · exact hregs u hu

/-- Nothing is assigned at a function's entry. -/
theorem Target.entryState_known {t : Target} (ht : t.Faithful) (entry : Word) (scope : List Value) :
    ∀ v ∈ (t.entryState entry).values, v.Known scope := by
  have hset (values : List (Reg × Value)) (hvalues : ∀ e ∈ values, e.2.Known scope) (regs : RegFile)
      (hregs : ∀ v ∈ regs.values, v.Known scope) :
      ∀ v ∈ (values.foldl (fun regs p => regs.setIfFits p.1 p.2) regs).values, v.Known scope := by
    induction values generalizing regs with
    | nil => exact hregs
    | cons e rest ih =>
      exact ih (fun e he => hvalues e (List.mem_cons_of_mem _ he)) _
        (RegFile.setIfFits_known hregs e.1 (hvalues e List.mem_cons_self))
  refine hset _ (fun e he => ?_) _ (RegFile.symbolic_known t.machine scope)
  cases he with
  | head => exact Or.inl rfl
  | tail _ he => exact Or.inl (ht.entry e he)

namespace Explore

variable {task : Task} {known scope : List Value}

/-- The registers at a successor are known where the block's flow is. -/
theorem edgeState?_known {defs : Definitions} (hdefs : defs.Closed scope) {b : FlowBlock}
    (hb : ∀ v ∈ b.flow.roots, v.Known scope) {succ : Word} {regs : RegFile}
    (h : edgeState? task defs b succ = some regs) : ∀ v ∈ regs.values, v.Known scope := by
  unfold edgeState? at h
  split at h
  · cases h
  · rename_i final hfinal
    have hregs : ∀ v ∈ final.values, v.Known scope := by
      intro v hv
      refine hb v (List.mem_append_left _ ?_)
      rw [hfinal]
      exact hv
    split at h
    · cases h
      exact task.target.machine.postCallRegs_known hdefs succ hregs
    · intro v hv
      cases hset : final.set task.target.machine.ip (task.target.machine.addr succ) with
      | error e =>
        rw [hset] at h
        cases h
      | ok regs' =>
        rw [hset] at h
        cases h
        cases Build.mem_of_set hset hv with
        | inl hheld => exact hregs v hheld
        | inr hnew => exact hnew ▸ Or.inl rfl

/-- What a block adds to the queue starts from known registers. -/
theorem newWork_known {defs : Definitions} (hdefs : defs.Closed scope) {b : FlowBlock}
    (hb : ∀ v ∈ b.flow.roots, v.Known scope) {visited : List Word} :
    ∀ work ∈ newWork task defs visited b, ∀ v ∈ work.2.values, v.Known scope := by
  intro work hwork
  obtain ⟨succ, -, hsome⟩ := List.mem_filterMap.1 hwork
  split at hsome
  · cases hsome
  · obtain ⟨regs, hregs, rfl⟩ := Option.map_eq_some_iff.1 hsome
    exact edgeState?_known hdefs hb hregs

/-! ### One run -/

/-- Recording blocks is recording their statements in order. -/
theorem withBlocks_eq_record (defs : Definitions) (blocks : List Block) :
    withBlocks defs blocks = defs.record (blocks.flatMap Block.stmts) := by
  induction blocks generalizing defs with
  | nil => rfl
  | cons b rest ih =>
    show withBlocks (defs.record b.stmts) rest = _
    rw [ih, List.flatMap_cons]
    exact List.foldl_append.symm

/-- What a run finds is scoped if its blocks are. A block reads what the
split blocks before it pass on, and those keep it. -/
theorem found_scoped (htarget : task.target.Faithful) {defs : Definitions} {blocks : List Block}
    {found : List FlowBlock} (h : blocks.mapM (classified? task defs) = some found)
    (hblocks : RunScoped known blocks) (hclosed : defs.Closed known)
    (hagrees : defs.Agrees (blocks.flatMap Block.stmts)) :
    BlocksScoped known found ∧
      (assignments (found.flatMap FlowBlock.stmts)).Sublist
        (assignments (blocks.flatMap Block.stmts)) := by
  induction blocks generalizing known found with
  | nil =>
    cases h
    exact ⟨trivial, .refl _⟩
  | cons b rest ih =>
    rw [List.flatMap_cons] at hagrees
    rw [List.mapM_cons] at h
    obtain ⟨block, hblock, h⟩ := Option.bind_eq_some_iff.1 h
    obtain ⟨more, hmore, h⟩ := Option.bind_eq_some_iff.1 h
    cases h
    have hown : defs.Agrees b.stmts := hagrees.anti fun s hs => by
      rw [assignments_append]
      exact List.mem_append_left _ hs
    have hothers : defs.Agrees (rest.flatMap Block.stmts) := hagrees.anti fun s hs => by
      rw [assignments_append]
      exact List.mem_append_right _ hs
    have hclosed' := hclosed.append hblocks.1.stmts hown
    obtain ⟨hscoped, hpassed, hsub⟩ := classified_scoped htarget hblock hblocks.1 hclosed'
    -- A split block passes on all of its results, any other block none.
    have hclosedRest : defs.Closed (known ++ b.passedOn) := by
      unfold Block.passedOn
      split
      · exact hclosed'
      · rw [List.append_nil]
        exact hclosed
    obtain ⟨hrest, hsubRest⟩ := ih hmore hblocks.2 hclosedRest hothers
    refine ⟨⟨hscoped, hrest.mono ?_⟩, ?_⟩
    · exact List.append_subset.2
        ⟨List.subset_append_left _ _, fun v hv => List.mem_append_right _ (hpassed hv)⟩
    · rw [List.flatMap_cons, List.flatMap_cons, assignments_append, assignments_append]
      exact hsub.append hsubRest

/-- The statements found so far. -/
def Progress.stmts (p : Progress) : List Stmt :=
  p.blocks.flatMap FlowBlock.stmts

/-- Everything that has been found is scoped, is recorded as it is and
has numbers of its own, and the registers in the queue are known. -/
structure Progress.Rooted (p : Progress) : Prop where
  blocks : BlocksScoped [] p.blocks
  agrees : p.defs.Agrees p.stmts
  nodup : (p.stmts.filterMap Stmt.assignId?).Nodup
  issued : ∀ id ∈ p.stmts.filterMap Stmt.assignId?, id < p.session.discovery.issued
  queue : ∀ work ∈ p.worklist, ∀ v ∈ work.2.values, v.Known (results p.stmts)
  atRest : p.session.discovery.AtRest

/-- What a run finds comes after what was there. -/
theorem Progress.stmts_withFound (p : Progress) (tally : Tally) (found : List FlowBlock) :
    (p.withFound task tally found).stmts = p.stmts ++ found.flatMap FlowBlock.stmts :=
  List.flatMap_append

/-- Definitions that agree with the statements of scoped blocks are
closed. -/
theorem closed_of_agrees {defs : Definitions} {blocks : List FlowBlock}
    (hblocks : BlocksScoped [] blocks) (hagrees : defs.Agrees (blocks.flatMap FlowBlock.stmts)) :
    defs.Closed (results (blocks.flatMap FlowBlock.stmts)) := by
  have hclosed := defs.closed_nil.append hblocks.stmts hagrees
  rw [List.nil_append] at hclosed
  exact hclosed

/-- At the entry nothing has been found, and nothing is assigned in the
registers. -/
theorem rooted_atEntry (htarget : task.target.Faithful) (entry : Word) :
    (atEntry task entry).Rooted := by
  refine ⟨trivial, fun _ _ _ h => absurd h List.not_mem_nil, List.nodup_nil,
    fun _ h => absurd h List.not_mem_nil, fun work hwork => ?_, Discovery.atRest_empty⟩
  rw [List.mem_singleton.1 hwork]
  exact Target.entryState_known htarget entry _

/-- What is taken from the queue was in it, and so is the rest. -/
theorem mem_of_nextUnvisited? {visited : List Word} {queue rest : List (Word × RegFile)}
    {work : Word × RegFile} (h : nextUnvisited? visited queue = some (work, rest)) :
    work ∈ queue ∧ rest ⊆ queue := by
  induction queue with
  | nil => cases h
  | cons first others ih =>
    rw [nextUnvisited?] at h
    split at h
    · obtain ⟨hmem, hsub⟩ := ih h
      exact ⟨List.mem_cons_of_mem _ hmem, fun w hw => List.mem_cons_of_mem _ (hsub hw)⟩
    · cases h
      exact ⟨List.mem_cons_self, List.subset_cons_self _ _⟩

section Own

variable (htarget : task.target.Faithful)
  (hisa : ∀ instr addr size, (task.isa.recipe instr addr size).OwnPath {})

include htarget hisa

/-- One run from known registers. -/
theorem visit_rooted {addr : Word} {regs : RegFile} {p p' : Progress}
    (h : visit task addr regs p = (.ok (), p')) (hp : p.Rooted)
    (hregs : ∀ v ∈ regs.values, v.Known (results p.stmts)) : p'.Rooted := by
  obtain ⟨out, session, found, tally, hrun, hfound, rfl⟩ := visit_eq_ok h
  obtain ⟨hscoped, hnodup, hfresh, hle, hatRest⟩ :=
    Disassembly.run_scoped hisa hrun hp.atRest hregs
  rw [withBlocks_eq_record] at hfound ⊢
  generalize hdefs : p.defs.record (out.blocks.flatMap Block.stmts) = defs at hfound ⊢
  -- The run's numbers were not in use, so nothing recorded before is hidden.
  have hapart : ∀ id ∈ (out.blocks.flatMap Block.stmts).filterMap Stmt.assignId?,
      id ∉ p.stmts.filterMap Stmt.assignId? := by
    intro id hid hmem
    exact absurd (hp.issued id hmem) (Nat.not_lt.2 (hfresh id hid).1)
  have hold : defs.Agrees p.stmts := hdefs ▸ hp.agrees.record hapart
  have hnew : defs.Agrees (out.blocks.flatMap Block.stmts) :=
    hdefs ▸ Definitions.agrees_record p.defs hnodup
  obtain ⟨hfoundScoped, hsub⟩ :=
    found_scoped htarget hfound hscoped (closed_of_agrees hp.blocks hold) hnew
  -- Pruning may drop numbers, and brings in none.
  have hids : ((found.flatMap FlowBlock.stmts).filterMap Stmt.assignId?).Sublist
      ((out.blocks.flatMap Block.stmts).filterMap Stmt.assignId?) := by
    have hmap := hsub.filterMap Stmt.assignId?
    rw [filterMap_assignments fun _ hs => hs, filterMap_assignments fun _ hs => hs] at hmap
    exact hmap
  have hblocks : BlocksScoped [] (p.blocks ++ found) :=
    BlocksScoped.append_iff.2 ⟨hp.blocks, hfoundScoped⟩
  have hagrees : defs.Agrees ((p.blocks ++ found).flatMap FlowBlock.stmts) := by
    rw [List.flatMap_append]
    exact hold.append (hnew.anti hsub.subset)
  refine ⟨hblocks, hagrees, ?_, ?_, ?_, hatRest⟩
  · rw [Progress.stmts_withFound, List.filterMap_append]
    exact List.nodup_append.2 ⟨hp.nodup, hnodup.sublist hids, fun old hold id hid heq =>
      hapart id (hids.subset hid) (heq ▸ hold)⟩
  · intro id hid
    rw [Progress.stmts_withFound, List.filterMap_append] at hid
    cases List.mem_append.1 hid with
    | inl hmem => exact Nat.lt_of_lt_of_le (hp.issued id hmem) hle
    | inr hmem => exact (hfresh id (hids.subset hmem)).2
  · intro work hwork
    cases List.mem_append.1 hwork with
    | inl hmem =>
      intro v hv
      rw [Progress.stmts_withFound, results_append]
      exact (hp.queue work hmem v hv).mono (List.subset_append_left _ _)
    | inr hmem =>
      obtain ⟨b, hb, hwork⟩ := List.mem_flatMap.1 hmem
      -- Successors start from what the flow of a new block reads.
      refine newWork_known (closed_of_agrees hblocks hagrees) (fun v hv => ?_) work hwork
      have hknown := hblocks.known_root (List.mem_append_right _ hb) hv
      rw [List.nil_append] at hknown
      exact hknown

/-- All runs together. -/
theorem Makes.rooted {p q : Progress} {visits : List Visit} (h : Makes task p visits q)
    (hp : p.Rooted) : q.Rooted := by
  refine h.preserves (fun p v hv hp => ?_) hp
  obtain ⟨rest, hnext, hbefore, hvisit⟩ := nextVisit?_eq_some_iff.1 hv
  obtain ⟨hmem, hsub⟩ := mem_of_nextUnvisited? hnext
  have hvisiting : v.before.Rooted := by
    rw [hbefore]
    exact { hp with queue := fun work hwork => hp.queue work (hsub hwork) }
  refine visit_rooted htarget hisa hvisit hvisiting ?_
  rw [hbefore]
  exact hp.queue (v.addr, v.regs) hmem

end Own

end Explore

/-! ### The whole function -/

/-- Exactly one statement of the function assigns the value, and it is
among `earlier`. -/
def Function.DefinesOnce (f : Function) (earlier : List Stmt) (id : AssignId) (ty : Ty) : Prop :=
  ∃ rhs, Stmt.assign id ty rhs ∈ earlier ∧
    (f.blocks.flatMap FlowBlock.stmts).filter (·.assignId? = some id) = [.assign id ty rhs]

/-- An assignment whose number occurs once is the only one with it. -/
theorem filter_assignId?_of_nodup {stmts : List Stmt} (h : (stmts.filterMap Stmt.assignId?).Nodup)
    {id : AssignId} {ty : Ty} {rhs : Rhs} (hmem : Stmt.assign id ty rhs ∈ stmts) :
    stmts.filter (·.assignId? = some id) = [.assign id ty rhs] := by
  obtain ⟨first, rest, rfl⟩ := List.append_of_mem hmem
  have hnone {part : List Stmt} (hpart : id ∉ part.filterMap Stmt.assignId?) :
      part.filter (·.assignId? = some id) = [] := by
    refine List.filter_eq_nil_iff.2 fun s hs heq => ?_
    exact hpart (List.mem_filterMap.2 ⟨s, hs, of_decide_eq_true heq⟩)
  have hids : (Stmt.assign id ty rhs :: rest).filterMap Stmt.assignId? =
      id :: rest.filterMap Stmt.assignId? := rfl
  rw [List.filterMap_append, hids, List.nodup_append, List.nodup_cons] at h
  have hfirst : id ∉ first.filterMap Stmt.assignId? :=
    fun hid => h.2.2 id hid id List.mem_cons_self rfl
  have hself : decide ((Stmt.assign id ty rhs).assignId? = some id) = true := decide_eq_true rfl
  rw [List.filter_append, List.filter_cons, hself, if_pos rfl, hnone hfirst, hnone h.2.1.1,
    List.nil_append]

/-- A known name is assigned once, among the statements that make it
known. -/
theorem Function.definesOnce_of_known {f : Function}
    (h : ((f.blocks.flatMap FlowBlock.stmts).filterMap Stmt.assignId?).Nodup)
    {earlier : List Stmt} (hearlier : earlier ⊆ f.blocks.flatMap FlowBlock.stmts) {id : AssignId}
    {ty : Ty} (hknown : (Value.assign id ty).Known (results earlier)) :
    f.DefinesOnce earlier id ty := by
  obtain ⟨id', ty', rhs, heq, hmem⟩ := mem_results.1 hknown.of_assign
  cases heq
  exact ⟨rhs, hmem, filter_assignId?_of_nodup h (hearlier hmem)⟩

namespace Explore

/-- Every assigned value that a discovered function reads, in a statement
or in the flow of a block, is assigned exactly once, and before it is
read. -/
theorem function_defines_uses {task : Task} (htarget : task.target.Faithful)
    (hisa : ∀ instr addr size, (task.isa.recipe instr addr size).OwnPath {}) {entry : Word}
    {f : Function} {tally : Tally} (h : function task entry = (.ok f, tally))
    {before after : List FlowBlock} {b : FlowBlock} (hblocks : f.blocks = before ++ b :: after)
    (id : AssignId) (ty : Ty) :
    (∀ first s rest, b.stmts = first ++ s :: rest → Value.assign id ty ∈ s.uses →
      f.DefinesOnce (before.flatMap FlowBlock.stmts ++ first) id ty) ∧
    (Value.assign id ty ∈ b.flow.roots →
      f.DefinesOnce (before.flatMap FlowBlock.stmts ++ b.stmts) id ty) := by
  obtain ⟨visits, p, hmakes, hfound, -⟩ := exists_makes_of_function h
  have hp := hmakes.rooted htarget hisa (rooted_atEntry htarget entry)
  have hscoped : BlocksScoped [] (before ++ b :: after) := by
    rw [← hblocks, hfound]
    exact hp.blocks
  have hnodup : ((f.blocks.flatMap FlowBlock.stmts).filterMap Stmt.assignId?).Nodup := by
    rw [hfound]
    exact hp.nodup
  have hall : f.blocks.flatMap FlowBlock.stmts =
      before.flatMap FlowBlock.stmts ++ (b.stmts ++ after.flatMap FlowBlock.stmts) := by
    rw [hblocks, List.flatMap_append, List.flatMap_cons]
  -- What is known before the block is what the earlier blocks assign.
  have hb : b.Scoped (results (before.flatMap FlowBlock.stmts)) :=
    (BlocksScoped.append_iff.1 hscoped).2.1
  constructor
  · intro first s rest hstmts huse
    refine Function.definesOnce_of_known hnodup ?_ ?_
    · rw [hall, hstmts, List.append_assoc first, ← List.append_assoc _ first]
      exact List.subset_append_left _ _
    · rw [results_append]
      exact (hstmts ▸ hb.stmts).known_of_mem huse
  · intro hroot
    refine Function.definesOnce_of_known hnodup ?_ ?_
    · rw [hall, ← List.append_assoc]
      exact List.subset_append_left _ _
    · rw [results_append]
      exact hb.roots _ hroot

/-- Four instructions of one byte each. The first one takes back a sum and
makes room on the stack, the second one calls, the third one writes to
memory under a condition on the stack pointer, and the last one returns. -/
def frameRecipe : UInt8 → Recipe
  | 1 => .step (.save "start") <|
      .step (.bind "spare" (.binary .add (.leaf (.reg 4)) (.leaf (.reg 3)))) <|
      .step (.restore "start") <|
      .step (.set 4 (.binary .sub (.leaf (.reg 4)) (.leaf (.value (.bv 64 16))))) <|
      .step .advance .done
  | 2 => .step (.set 4 (.binary .sub (.leaf (.reg 4)) (.leaf (.value (.bv 64 8)))))
      (.step (.store (.leaf (.reg 4)) (.leaf (.value (.bv 64 0x1002))))
        (.step (.setIp 0x1010) .done))
  | 3 => .step (.bind "slot" (.binary .add (.leaf (.reg 4)) (.leaf (.reg 3))))
      (.branch (.binary .eq (.leaf (.temp "slot")) (.leaf (.value (.bv 64 0))))
        (.step .advance .done)
        (.step (.store (.leaf (.temp "slot")) (.leaf (.reg 3))) (.step .advance .done)) .done)
  | 4 => .step (.load "to" (.binary .add (.leaf (.reg 4)) (.leaf (.value (.bv 64 16)))) 8)
      (.step (.set 4 (.binary .add (.leaf (.reg 4)) (.leaf (.value (.bv 64 24)))))
        (.step (.set 16 (.leaf (.temp "to"))) .done))
  | _ => .step (.fail "unknown") .done

/-- It returns to its checkpoint before it binds anything that it uses
later. -/
theorem frameRecipe_ownPath (instr : UInt8) : (frameRecipe instr).OwnPath {} := by
  unfold frameRecipe
  split <;>
    simp [Recipe.OwnPath, Recipe.Step.OwnPath, Recipe.Path.after, Recipe.Path.bind,
      Recipe.Path.save, Expr.All, Recipe.Leaf.OwnPath, Value.assignId?]

/-- These instructions on a machine with a stack. -/
def frameTask : Task where
  target := X8664.target
  isa :=
    { Instr := UInt8
      decode := fun bytes _ => bytes.head?.map (·, 1)
      recipe := fun instr _ _ => frameRecipe instr }
  image := .ofCode .little 0x1000 [1, 2, 3, 4]
  known := []

/-- The last block returns through the stack pointer that the first one
set up, although a call and a split lie between them. -/
theorem function_defines_uses_frame :
    ∃ f tally before b first s rest, function frameTask 0x1000 = (.ok f, tally) ∧
      f.blocks = before ++ [b] ∧ b.addr = 0x1003 ∧ b.stmts = first ++ s :: rest ∧
      .assign 1 (.bv 64) ∈ s.uses ∧
      f.DefinesOnce (before.flatMap FlowBlock.stmts ++ first) 1 (.bv 64) := by
  have hlast : ((function frameTask 0x1000).1.toOption.map fun f =>
      (f.blocks.drop 4).map fun b => (b.addr, b.stmts.take 2)) =
      some [(0x1003, [.instruction 0x1003 1, .assign 5 (.bv 64)
        (.app (.binary .add (.assign 1 (.bv 64)) (.bv 64 16)))])] := by decide +kernel
  generalize hanswer : function frameTask 0x1000 = answer at hlast
  obtain ⟨result, tally⟩ := answer
  cases result with
  | error e => cases hlast
  | ok f =>
    obtain ⟨b, hb, hview⟩ := List.map_eq_singleton_iff.1 (Option.some.inj hlast)
    have hblocks : f.blocks = f.blocks.take 4 ++ [b] := by
      rw [← hb, List.take_append_drop]
    have haddr : b.addr = 0x1003 := congrArg Prod.fst hview
    have hstmts := List.take_append_drop 2 b.stmts
    rw [show b.stmts.take 2 = _ from congrArg Prod.snd hview] at hstmts
    have htarget : frameTask.target.Faithful := targets_faithful X8664.target (by simp)
    have huse := function_defines_uses htarget (fun instr _ _ => frameRecipe_ownPath instr) hanswer
      hblocks 1 (.bv 64)
    refine ⟨f, tally, f.blocks.take 4, b, [.instruction 0x1003 1], _, b.stmts.drop 2, rfl, hblocks,
      haddr, hstmts.symm, List.mem_cons_self, ?_⟩
    exact huse.1 _ _ _ hstmts.symm List.mem_cons_self

/-- A machine with two flags. -/
def undoMachine : Machine where
  name := "undo"
  addrWidth := 32
  order := .little
  registers := [.word32 "pc", .word32 "sp", .word32 "lr", .flag "z", .flag "c"]
  ip := 0
  sp := 1
  link := some 2

/-- An instruction that returns, whatever its flags are. If the first one is
set it moves the stack pointer, branches on the second one, takes both back
and ends its block. Then it returns to a checkpoint from before it took them
back. -/
def undoRecipe : Recipe :=
  let back : Recipe := .step (.set 0 (.leaf (.reg 2))) .done
  .branch (.leaf (.reg 3))
    (.step (.save "outer") <|
      .step (.set 1 (.binary .add (.leaf (.reg 1)) (.leaf (.value (.bv 32 4))))) <|
      .branch (.leaf (.reg 4)) back back <|
      .step (.save "inner") <|
      .step (.restore "outer") <|
      .step (.set 0 (.leaf (.reg 2))) <|
      .step (.close .fetch) <|
      .step (.restore "inner") .done)
    back .done

/-- This instruction, on a machine with a link register. -/
def undoTask : Task where
  target :=
    { machine := undoMachine
      recognizers := .linked undoMachine
      entryValues := [(2, .returnAddr 32)] }
  isa :=
    { Instr := UInt8
      decode := fun bytes _ => bytes.head?.map (·, 1)
      recipe := fun _ _ _ => undoRecipe }
  image := .ofCode .little 0x1000 [1]
  known := []

/-- The recipe uses no value that is not its own, but it returns to a
checkpoint that it has given up. That hands out the numbers of the undone
branch once more, so its arms are built, and they hold a stack pointer that
nothing assigns. -/
theorem function_holds_undone_result :
    undoTask.target.Faithful ∧
    undoRecipe.AllSteps (fun s => s.OwnPath {} ∨ ∃ name, s = .restore name) ∧
    ∃ f tally, function undoTask 0x1000 = (.ok f, tally) ∧
      (f.blocks.map fun b => decide (.assign 0 (.bv 32) ∈ b.flow.roots)) =
        [false, false, false, true, true] ∧
      ∀ earlier, ¬ f.DefinesOnce earlier 0 (.bv 32) := by
  have hview : ((function undoTask 0x1000).1.toOption.map fun f =>
      (f.blocks.map fun b => decide (.assign 0 (.bv 32) ∈ b.flow.roots),
        (f.blocks.flatMap FlowBlock.stmts).filter (·.assignId? = some 0))) =
      some ([false, false, false, true, true], []) := by decide +kernel
  refine ⟨⟨by decide, Recognizers.linked_faithful _, Rule.standard_faithful, ?_⟩, ?_, ?_⟩
  · intro change h
    cases h
  · simp [undoRecipe, Recipe.AllSteps, Recipe.Step.OwnPath, Recipe.Closing.OwnPath, Expr.All,
      Recipe.Leaf.OwnPath, Value.assignId?]
  · generalize function undoTask 0x1000 = answer at hview ⊢
    obtain ⟨result, tally⟩ := answer
    cases result with
    | error e => cases hview
    | ok f =>
      obtain ⟨hroots, hnone⟩ := Prod.mk.inj (Option.some.inj hview)
      refine ⟨f, tally, rfl, hroots, ?_⟩
      rintro earlier ⟨rhs, -, hone⟩
      rw [hnone] at hone
      cases hone

end Explore

end FlowRecovery
