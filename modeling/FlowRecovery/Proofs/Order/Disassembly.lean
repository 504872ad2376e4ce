import FlowRecovery.Proofs.Disassembly
import FlowRecovery.Proofs.Order
import Mathlib.Data.List.Nodup

/-!
# `FlowRecovery.Proofs.Order.Disassembly`: the numbers of a session

Several runs share one count of blocks and one of assignments. If the
recipes leave naming to the builder, the blocks of all runs together are
numbered without a gap, in the order in which they come out, and no
assignment is made twice (`Disassembly.runAll_numbering`). The blocks of
a run form a tree: its first block is the root, and every other block is
where one arm of one earlier block goes (`Disassembly.BranchTree`).

Between runs no block is left behind and every number in use is smaller
than the next one (`Discovery.Rested`). A run starts in order from there,
and a decoding failure brings the order back that its instruction found,
with some assignment numbers lost.
-/

set_option autoImplicit false

namespace FlowRecovery

/-- The state between two runs. -/
structure Discovery.Rested (d : Discovery) : Prop where
  finished : d.ledger.finished = []
  emitted : ∀ i ∈ d.ledger.emitted, i < d.ledger.next
  last : ∀ i, d.ledger.last = some i → i < d.ledger.next

/-- A session starts at rest. -/
theorem Discovery.rested_fresh : ({} : Discovery).Rested :=
  ⟨rfl, fun _ hi => absurd hi List.not_mem_nil, fun _ hi => by cases hi⟩

/-- A run starts in order, with a first block that nobody waits for. -/
theorem Builder.ordered_start {d : Discovery} (hd : d.Rested) (addr : Word) (regs : RegFile) :
    (Builder.start d addr regs).Ordered d.ledger.next d.issued [] := by
  have hnone : (Builder.start d addr regs).ledger.finished = [] := hd.finished
  refine ⟨Nat.lt_succ_self _, ?_, ?_, ?_, ?_, ?_, Nat.le_refl _, ?_⟩
  · -- The first block has the first number, and is the open one.
    show (Builder.start d addr regs).ledger.finished.map Block.index ++ [d.ledger.next] =
      List.range' d.ledger.next (d.ledger.next + 1 - d.ledger.next)
    rw [hnone, Nat.add_sub_cancel_left]
    rfl
  · -- No branch has gone anywhere.
    show (Builder.start d addr regs).ledger.finished.flatMap (fun blk => blk.exit.targets) =
      List.range' (d.ledger.next + 1) (d.ledger.next + 1 - (d.ledger.next + 1))
    rw [hnone, Nat.sub_self]
    rfl
  · intro blk hblk
    rw [hnone] at hblk
    cases hblk
  · exact fun i hi => Or.inl (hd.emitted i hi)
  · exact fun i hi => Or.inl (hd.last i hi)
  · rw [hnone]
    exact .nil

namespace Disassembly

/-! ### One run -/

section Run

variable {first low : Nat} {src : Source}

/-- After an instruction the order is kept, and the block is closed unless
control goes on. -/
theorem ordered_conclude (pc : Word) (size : Nat) :
    Ensures (Builder.Ordered first low []) (conclude src pc size) fun after b =>
      b.Ordered first low [] ∧ (b.current = none ∨ ∃ next, after = .fallsThrough next) := by
  intro b hb
  rw [conclude, get_bind_apply]
  cases hblk : b.current with
  | none =>
    rw [Builder.isOpen, hblk]
    exact ⟨hb, Or.inl hblk⟩
  | some blk =>
    rw [Builder.isOpen, hblk]
    refine (Build.ordered_of_local (.getRegister src.machine.ip)).bind (fun ip => ?_) b hb
    split
    · exact .pure _ fun _ h => ⟨h, Or.inr ⟨_, rfl⟩⟩
    · exact (Build.ordered_close fun _ => rfl).bind fun _ => .pure _ fun _ h => ⟨h.1, Or.inl h.2⟩

variable (hisa : ∀ instr addr size,
  (src.isa.recipe instr addr size).AllSteps Recipe.Step.Orderly)
include hisa

/-- An instruction keeps the order, its marker included. -/
theorem ordered_step (pc : Word) :
    Ensures (Builder.Ordered first low []) (step src pc) fun _ => Builder.Ordered first low [] := by
  -- Failing to decode is no refusal of the ledger.
  have hfetch : Build.IsLocal True (ExceptT.mk (pure (fetch src pc)) : Build _) := by
    refine ⟨fun b => .refl b, fun b e he => ?_⟩
    have he : fetch src pc = .error e := he
    unfold fetch at he
    split at he
    · cases he
      rfl
    · split at he
      · cases he
        rfl
      · split at he
        · cases he
        · cases he
          rfl
  refine (Build.ordered_of_local hfetch).bind fun found => ?_
  refine (Build.ordered_of_local (.emit fun _ => rfl)).bind fun _ => ?_
  exact (Recipe.ordered_run (hisa found.1 pc found.2) _).bind fun _ => .pure _ fun _ h => h

/-- One instruction, carried out or undone. -/
theorem ordered_decodeOne (pc : Word) :
    Ensures (Builder.Ordered first low []) (decodeOne src pc) fun after b =>
      b.Ordered first low [] ∧ (b.current = none ∨ ∃ next, after = .fallsThrough next) := by
  intro b hb
  rw [decodeOne, modify_bind_apply, get_bind_apply]
  -- Where new blocks start does not matter to their numbers.
  have hmoved : Builder.Ordered first low [] { b with instrAddr := pc } :=
    ⟨hb.first_lt, hb.numbers, hb.targets, hb.forward, hb.emitted, hb.last, hb.low_le, hb.ids⟩
  generalize { b with instrAddr := pc } = before at hmoved
  have hstep := ordered_step hisa pc before hmoved
  have hgrows := step_grows_of_heritable (Recipe.heritable_allSteps fun _ h => h) hisa pc before
  rw [Build.attempt_bind_apply]
  cases hresult : step src pc before with
  | mk result b₁ =>
    rw [hresult] at hstep hgrows
    cases result with
    | ok size => exact ordered_conclude pc size b₁ hstep
    | error e =>
      cases e with
      | violation v => exact hstep
      | decode addr reason =>
        -- The block is closed as it was before the instruction.
        have hclose : Ensures (Builder.Ordered first low []) (Build.close (.failed · pc reason))
            fun _ b => b.Ordered first low [] ∧ b.current = none :=
          Build.ordered_close fun _ => rfl
        show Meets _ ((abandon before.checkpoint pc reason >>= fun _ => _) b₁)
        rw [abandon, bind_assoc, modify_bind_apply, bind_assoc]
        exact hclose.bind (fun _ => .pure _ fun _ h => ⟨h.1, Or.inl h.2⟩) _ (hmoved.rollback hgrows)

/-- A run keeps the order and closes its last block. Induction on the
instructions that are left. -/
theorem ordered_decodeFrom (more : Nat) (pc : Word) :
    Ensures (Builder.Ordered first low []) (decodeFrom src more pc) fun _ b =>
      b.Ordered first low [] ∧ b.current = none := by
  induction more generalizing pc with
  | zero =>
    refine (ordered_decodeOne hisa pc).bind fun after => ?_
    cases after with
    | closed failure => exact .pure _ fun _ h => ⟨h.1, h.2.resolve_right (by simp)⟩
    | fallsThrough next =>
      -- The limit closes the block that is still open.
      exact ((Build.ordered_close fun _ => rfl).imp (fun _ h => h.1) fun _ _ h => h).bind
        fun _ => .pure _ fun _ h => h
  | succ more ih =>
    refine (ordered_decodeOne hisa pc).bind fun after => ?_
    cases after with
    | closed failure => exact .pure _ fun _ h => ⟨h.1, h.2.resolve_right (by simp)⟩
    | fallsThrough next => exact (ih next).imp (fun _ h => h.1) fun _ _ h => h

end Run

/-! ### The blocks that come out -/

/-- The blocks are numbered one after the other from where the first
session stands to where the second does, and so, with numbers left out,
are their assignments. -/
structure Numbering (s s' : Session) (blocks : List Block) : Prop where
  next_le : s.discovery.ledger.next ≤ s'.discovery.ledger.next
  indices : blocks.map Block.index =
    List.range' s.discovery.ledger.next (s'.discovery.ledger.next - s.discovery.ledger.next)
  issued_le : s.discovery.issued ≤ s'.discovery.issued
  ids : Numbered s.discovery.issued s'.discovery.issued (blocks.flatMap Block.stmts)

/-- Without blocks no number is taken. -/
theorem Numbering.refl (s : Session) : Numbering s s [] := by
  refine ⟨Nat.le_refl _, ?_, Nat.le_refl _, .nil⟩
  rw [Nat.sub_self]
  rfl

/-- The numbers of one run follow those of another. -/
theorem Numbering.trans {s s' s'' : Session} {blocks more : List Block} (h : Numbering s s' blocks)
    (h' : Numbering s' s'' more) : Numbering s s'' (blocks ++ more) := by
  refine ⟨Nat.le_trans h.next_le h'.next_le, ?_, Nat.le_trans h.issued_le h'.issued_le, ?_⟩
  · have hsplit : s''.discovery.ledger.next - s.discovery.ledger.next =
        (s'.discovery.ledger.next - s.discovery.ledger.next) +
          (s''.discovery.ledger.next - s'.discovery.ledger.next) := by
      rw [Nat.add_comm, Nat.sub_add_sub_cancel h'.next_le h.next_le]
    rw [List.map_append, h.indices, h'.indices, hsplit, ← List.range'_append_1,
      Nat.add_sub_of_le h.next_le]
  · rw [List.flatMap_append]
    exact h.ids.append h'.ids h.issued_le h'.issued_le

/-- An arm: one side of the branch that a block ends in. -/
def ArmTo (blocks : List Block) (i : BlockIndex) (arm : Block × Bool) : Prop :=
  arm.1 ∈ blocks ∧ arm.1.exit.target? arm.2 = some i

/-- Arms go to later blocks of the run, and to each of them but the first
goes exactly one. -/
structure BranchTree (blocks : List Block) : Prop where
  forward : ∀ i arm, ArmTo blocks i arm → arm.1.index < i ∧ i ∈ blocks.map Block.index
  reached : ∀ blk ∈ blocks.tail, ∃! arm, ArmTo blocks blk.index arm

/-- A number is the target of at most one arm, if no target is listed
twice. -/
theorem armTo_unique {blocks : List Block} {i : BlockIndex} {arm arm' : Block × Bool}
    (hnodup : (blocks.flatMap fun blk => blk.exit.targets).Nodup) (h : ArmTo blocks i arm)
    (h' : ArmTo blocks i arm') : arm = arm' := by
  obtain ⟨blk, side⟩ := arm
  obtain ⟨blk', side'⟩ := arm'
  obtain ⟨hmem, htarget⟩ := h
  obtain ⟨hmem', htarget'⟩ := h'
  obtain ⟨hown, hdisjoint⟩ := List.nodup_flatMap.1 hnodup
  have hblk : blk = blk' := by
    by_contra hne
    have : Std.Symm (Function.onFun List.Disjoint fun blk : Block => blk.exit.targets) :=
      ⟨fun _ _ hd _ h h' => hd h' h⟩
    have hsep := hdisjoint.forall hmem hmem' hne
    exact hsep (Exit.mem_targets_iff.2 ⟨side, htarget⟩) (Exit.mem_targets_iff.2 ⟨side', htarget'⟩)
  subst hblk
  -- The two sides of one branch differ, so they are the same side.
  have hsides := hown blk hmem
  cases hexit : blk.exit with
  | branch cond onTrue onFalse =>
    simp only [hexit, Exit.targets, Exit.target?, List.nodup_cons, List.mem_singleton,
      Option.some.injEq] at hsides htarget htarget'
    cases side <;> cases side' <;> simp_all
  | fetch | failed | arch =>
    simp only [hexit, Exit.target?] at htarget
    cases htarget

/-- The targets of the branches are all numbers but the first, so the
blocks form a tree. -/
theorem branchTree_of_ordered {first low : Nat} {b : Builder}
    (h : b.Ordered first low []) (hclosed : b.current = none) :
    BranchTree b.ledger.finished := by
  -- The targets, in order, are the numbers of all blocks but the first.
  have htail : b.ledger.finished.tail.map Block.index =
      b.ledger.finished.flatMap fun blk => blk.exit.targets := by
    rw [h.targets, List.map_tail, h.numbers_of_closed hclosed, List.tail_range']
    rfl
  have hnodup : (b.ledger.finished.flatMap fun blk => blk.exit.targets).Nodup := by
    rw [h.targets]
    exact List.nodup_range'
  constructor
  · intro i arm harm
    have hmem : i ∈ arm.1.exit.targets := Exit.mem_targets_iff.2 ⟨arm.2, harm.2⟩
    refine ⟨h.forward arm.1 harm.1 i hmem, ?_⟩
    have hi : i ∈ b.ledger.finished.tail.map Block.index := by
      rw [htail]
      exact List.mem_flatMap.2 ⟨arm.1, harm.1, hmem⟩
    obtain ⟨blk, hblk, hindex⟩ := List.mem_map.1 hi
    exact List.mem_map.2 ⟨blk, List.mem_of_mem_tail hblk, hindex⟩
  · intro blk hblk
    have hi : blk.index ∈ b.ledger.finished.tail.map Block.index := List.mem_map_of_mem hblk
    rw [htail] at hi
    obtain ⟨source, hsource, htarget⟩ := List.mem_flatMap.1 hi
    obtain ⟨side, hside⟩ := Exit.mem_targets_iff.1 htarget
    exact ⟨(source, side), ⟨hsource, hside⟩, fun other hother =>
      armTo_unique hnodup hother ⟨hsource, hside⟩⟩

/-! ### Several runs -/

/-- What a run is asked for. -/
structure Request where
  source : Source
  limit : Nat
  addr : Word
  regs : RegFile

/-- The run itself. -/
def Request.run (r : Request) : ExceptT BuildError (StateM Session) Disassembly :=
  Disassembly.run r.source r.limit r.addr r.regs

/-- The recipes of the request's instructions leave naming to the
builder: no assignment, no branch and no checkpoint of their own. -/
def Request.Orderly (r : Request) : Prop :=
  ∀ instr addr size, (r.source.isa.recipe instr addr size).AllSteps Recipe.Step.Orderly

/-- One run after the other, until one fails. -/
def runAll (requests : List Request) : ExceptT BuildError (StateM Session) (List Disassembly) :=
  requests.mapM Request.run

/-- One run numbers its blocks from where the session stands, and leaves
the session at rest. -/
theorem run_numbering {r : Request} (hr : r.Orderly) (s : Session) :
    Ensures (fun t => t = s ∧ s.discovery.Rested) r.run fun out s' =>
      Numbering s s' out.blocks ∧ BranchTree out.blocks ∧ s'.discovery.Rested := by
  rintro _ ⟨rfl, hs⟩
  rename_i s
  have hdecode := ordered_decodeFrom hr (r.limit - 1) r.addr _
    (Builder.ordered_start hs r.addr r.regs)
  rw [Request.run, run]
  cases hresult : decodeFrom r.source (r.limit - 1) r.addr
      (Builder.start s.discovery r.addr r.regs) with
  | mk result b =>
    rw [hresult] at hdecode
    cases result with
    | error e => exact hdecode
    | ok failure =>
      obtain ⟨hb, hclosed⟩ := hdecode
      have hnumbers := hb.numbers_of_closed hclosed
      have hids := hb.ids
      rw [Builder.stmts, hclosed] at hids
      simp only [Option.map_none, Option.getD_none, List.append_nil] at hids
      -- A number in use is from an earlier run or from this one.
      have hbelow (i : BlockIndex)
          (hi : i < s.discovery.ledger.next ∨ i ∈ b.ledger.finished.map Block.index) :
          i < b.ledger.next := by
        cases hi with
        | inl hold => exact Nat.lt_trans hold hb.first_lt
        | inr hnow =>
          rw [hnumbers, List.mem_range'_1, Nat.add_sub_of_le (Nat.le_of_lt hb.first_lt)] at hnow
          exact hnow.2
      exact ⟨⟨Nat.le_of_lt hb.first_lt, hnumbers, hb.low_le, hids⟩,
        branchTree_of_ordered hb hclosed,
        ⟨rfl, fun i hi => hbelow i (hb.emitted i hi), fun i hi => hbelow i (hb.last i hi)⟩⟩

/-- So do several runs, each from where the last one has left off.
Induction on the requests. -/
theorem runAll_ensures {requests : List Request} (hrequests : ∀ r ∈ requests, r.Orderly)
    (s : Session) :
    Ensures (fun t => t = s ∧ s.discovery.Rested) (runAll requests) fun outs s' =>
      Numbering s s' (outs.flatMap Disassembly.blocks) ∧ ∀ out ∈ outs, BranchTree out.blocks := by
  induction requests generalizing s with
  | nil =>
    rintro _ ⟨rfl, -⟩
    exact ⟨.refl _, fun _ hout => absurd hout List.not_mem_nil⟩
  | cons r rest ih =>
    rw [runAll, List.mapM_cons]
    refine (run_numbering (hrequests r List.mem_cons_self) s).bind fun out => ?_
    rintro s' ⟨hnumbering, htree, hrested⟩
    have hrest := ih (fun r hr => hrequests r (List.mem_cons_of_mem _ hr)) s'
    refine Ensures.bind hrest (fun outs => ?_) s' ⟨rfl, hrested⟩
    refine .pure _ fun s'' h => ⟨?_, ?_⟩
    · exact hnumbering.trans h.1
    · intro o ho
      cases ho with
      | head => exact htree
      | tail _ ho => exact h.2 o ho

/-- The block numbers of all these runs, one after the other, fit in
32 bits. -/
def AllNumbersFit (requests : List Request) : Prop :=
  ∀ earlier r later outs s, requests = earlier ++ r :: later → runAll earlier {} = (.ok outs, s) →
    NumbersFit r.source r.limit r.addr (.start s.discovery r.addr r.regs)

/-- The blocks of all runs of a fresh session are numbered in the order in
which they come out, the arms of each run form a tree, no assignment is
made twice, and no run ends because the ledger refuses a block, as long as
there are numbers for all of them. -/
theorem runAll_numbering {requests : List Request} (hrequests : ∀ r ∈ requests, r.Orderly) :
    (∀ outs s, runAll requests {} = (.ok outs, s) →
      (outs.flatMap Disassembly.blocks).map Block.index =
          List.range (outs.flatMap Disassembly.blocks).length ∧
        (∀ out ∈ outs, BranchTree out.blocks) ∧
        (((outs.flatMap Disassembly.blocks).flatMap Block.stmts).filterMap Stmt.assignId?).Nodup) ∧
      (AllNumbersFit requests →
        ∀ e s, runAll requests {} = (.error e, s) → e.isRefusal = false) := by
  have hall := runAll_ensures hrequests {}
  have hfresh : (({} : Session) = {} ∧ ({} : Session).discovery.Rested) :=
    ⟨rfl, Discovery.rested_fresh⟩
  refine ⟨fun outs s hrun => ?_, fun _ e s hrun => hall.of_error hfresh hrun⟩
  obtain ⟨hnumbering, htrees⟩ := hall.of_ok hfresh hrun
  refine ⟨?_, htrees, hnumbering.ids.nodup⟩
  have hindices := hnumbering.indices
  have hlength := congrArg List.length hindices
  rw [List.length_map, List.length_range'] at hlength
  rw [hindices, hlength]
  exact List.range_eq_range'.symm

/-- Three instructions of one byte each. The first one counts up, the
second one branches on the flag and, if it is set, on the count, and the
third one gives up after a branch. -/
def forkRecipe : UInt8 → Recipe
  | 1 => .step (.set 2 (.binary .add (.leaf (.reg 2)) (.leaf (.value (.bv 64 1)))))
      (.step .advance .done)
  | 2 => .branch (.leaf (.reg 1))
      (.branch (.binary .eq (.leaf (.reg 2)) (.leaf (.value (.bv 64 0))))
        (.step (.setIp 0x1000) .done) (.step .advance .done) .done)
      (.step .advance .done) .done
  | _ => .step (.bind "s" (.binary .add (.leaf (.reg 2)) (.leaf (.reg 2))))
      (.branch (.leaf (.reg 1)) .done .done (.step (.fail "unknown") .done))

open Recipe (flagMachine)

/-- Four instructions, of which the last one gives up. -/
def forkSource : Source where
  machine := flagMachine
  image := .ofCode .little 0x1000 [1, 2, 1, 3]
  isa :=
    { Instr := UInt8
      decode := fun bytes _ => bytes.head?.map (·, 1)
      recipe := fun instr _ _ => forkRecipe instr }

/-- A run from this address, with registers about which nothing is known.
-/
def forkRequest (addr : Word) : Request where
  source := forkSource
  limit := defaultLimit
  addr := addr
  regs := .symbolic flagMachine

/-- The recipes leave naming to the builder. -/
theorem forkRecipe_orderly (instr : UInt8) : (forkRecipe instr).AllSteps Recipe.Step.Orderly := by
  unfold forkRecipe
  split <;> simp [Recipe.AllSteps, Recipe.Step.Orderly]

/-- Eleven blocks of three runs, one of which ends in a failure. -/
theorem runAll_numbering_fork :
    ∃ outs s, runAll [forkRequest 0x1000, forkRequest 0x1002, forkRequest 0x1000] {} =
        (.ok outs, s) ∧
      outs.map (fun out => (out.blocks.length, out.failure.isSome)) =
        [(5, false), (1, true), (5, false)] ∧
      (outs.flatMap Disassembly.blocks).map Block.index = List.range 11 ∧
      (∀ out ∈ outs, BranchTree out.blocks) ∧
      (((outs.flatMap Disassembly.blocks).flatMap Block.stmts).filterMap
        Stmt.assignId?).Nodup := by
  have hview :
      (runAll [forkRequest 0x1000, forkRequest 0x1002, forkRequest 0x1000] {}).1.toOption.map
        (fun outs => (outs.map fun out => (out.blocks.length, out.failure.isSome),
          (outs.flatMap Disassembly.blocks).length)) =
      some ([(5, false), (1, true), (5, false)], 11) := by decide +kernel
  have horderly : ∀ r ∈ [forkRequest 0x1000, forkRequest 0x1002, forkRequest 0x1000],
      r.Orderly := by
    intro r hr
    simp only [List.mem_cons, List.not_mem_nil, or_false] at hr
    rcases hr with rfl | rfl | rfl <;> exact fun instr _ _ => forkRecipe_orderly instr
  have hnumbering := runAll_numbering horderly
  generalize runAll [forkRequest 0x1000, forkRequest 0x1002, forkRequest 0x1000] {} = answer
    at hview hnumbering
  obtain ⟨result, s⟩ := answer
  cases result with
  | error e => cases hview
  | ok outs =>
    obtain ⟨hlengths, hlength⟩ := Prod.mk.inj (Option.some.inj hview)
    obtain ⟨hindices, htrees, hnodup⟩ := hnumbering.1 outs s rfl
    exact ⟨outs, s, rfl, hlengths, hlength ▸ hindices, htrees, hnodup⟩

end Disassembly

end FlowRecovery
