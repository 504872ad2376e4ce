import FlowRecovery.Proofs.Closure
import FlowRecovery.Proofs.Limits

/-!
# `FlowRecovery.Proofs.Lookup`: the block at an address

A function is asked for the block at an address. Where a run starts, the
answer should be the first block of that run. There is always an answer,
but it is not always this one: the arms of a branch inside an instruction
have blocks of their own, and these have the address of the instruction.
If an earlier run has come through that instruction, its arms are found
first. `Explore.exists_blockAt?` says that nothing else can come in
between, and `loopTask` is a function where it does happen.

Two facts carry the proof. A run gives its blocks numbers that no block
had before (`Disassembly.run_emitted`), so the first block of a run is not
among those of another. And a block starts where an instruction was
decoded (`Disassembly.Decodes.placed`), unless instructions move the
address of new blocks themselves.
-/

set_option autoImplicit false

namespace FlowRecovery

/-! ### Where blocks start -/

/-- The open block and the finished ones start at such addresses, and so
will the next one. -/
structure Builder.Placed (S : Word → Prop) (b : Builder) : Prop where
  instrAddr : S b.instrAddr
  current : ∀ blk, b.current = some blk → S blk.addr
  finished : ∀ blk ∈ b.ledger.finished, S blk.addr

@[inherit_doc Builder.Placed]
structure Checkpoint.Placed (S : Word → Prop) (c : Checkpoint) : Prop where
  instrAddr : S c.instrAddr
  current : ∀ blk, c.current = some blk → S blk.addr

variable {S : Word → Prop}

/-- Going back brings no block that did not start there. -/
theorem Builder.Placed.rollback {b : Builder} (h : b.Placed S) {c : Checkpoint}
    (hc : c.Placed S) : (b.rollback c).Placed S :=
  ⟨hc.instrAddr, hc.current, fun blk hblk => h.finished blk (List.mem_of_mem_take hblk)⟩

/-- The open block is replaced by one with the same address. -/
theorem Builder.Placed.update {b b' : Builder} {blk blk' : OpenBlock} (h : b.Placed S)
    (hblk : b.current = some blk) (hblk' : b'.current = some blk') (haddr : blk'.addr = blk.addr)
    (hinstr : b'.instrAddr = b.instrAddr) (hledger : b'.ledger = b.ledger) : b'.Placed S := by
  refine ⟨hinstr ▸ h.instrAddr, fun other hother => ?_, hledger ▸ h.finished⟩
  cases hblk'.symm.trans hother
  exact haddr ▸ h.current blk hblk

/-- Work in a block does not change where it starts. -/
theorem Builder.kept_placed :
    Builder.Kept (fun _ => True) (fun _ => True) (Builder.Placed S) where
  write _ _ hblk h := h.update hblk rfl rfl rfl rfl
  append _ hblk h := h.update hblk rfl rfl rfl rfl
  name _ hblk h := h.update hblk rfl rfl rfl rfl

namespace Build

/-- Closing a block leaves its address as it is. -/
theorem placed_close (exit : RegFile → Exit) : Preserves (Builder.Placed S) (close exit) := by
  refine preserves_close (fun b hb => ⟨hb.instrAddr, fun _ h => (by cases h), hb.finished⟩)
    fun b blk l hblk hl hb => ⟨hb.instrAddr, fun _ h => (by cases h), ?_⟩
  rw [hl]
  exact List.forall_mem_append.2 ⟨hb.finished, List.forall_mem_singleton.2 (hb.current blk hblk)⟩

/-- Splitting closes a block, and opens none. -/
theorem placed_split (cond : Value) : Preserves (Builder.Placed S) (split cond) :=
  preserves_split (fun _ hb => ⟨hb.instrAddr, hb.current, hb.finished⟩) fun _ _ => placed_close _

/-- A block that is entered starts at the instruction at hand. -/
theorem placed_enter (index : BlockIndex) (regs : RegFile) :
    Preserves (Builder.Placed S) (enter index regs) := fun _ hb =>
  ⟨hb.instrAddr, fun _ heq => by cases heq; exact hb.instrAddr, hb.finished⟩

end Build

namespace Recipe

variable {site : Site} {temps : Temps}

/-- The step leaves the address of new blocks alone. -/
def Step.Stationary : Step → Prop
  | .moveTo _ => False
  | _ => True

/-- All blocks start at such addresses, also after going back to any of the
checkpoints, and the waiting arms leave the address of new blocks alone. -/
structure Progress.Placed (S : Word → Prop) (p : Progress) : Prop where
  builder : p.builder.Placed S
  pending : ∀ arm ∈ p.pending, arm.body.AllSteps Step.Stationary
  saved : ∀ entry ∈ p.saved, entry.2.Placed S

/-- What the builder does touches neither arms nor checkpoints. -/
theorem placed_build {α : Type} {x : Build α} (hx : Preserves (Builder.Placed S) x) :
    Preserves (Progress.Placed S) (build x) := fun p hp =>
  ⟨hx p.builder hp.builder, hp.pending, hp.saved⟩

/-- Work in the open block, as part of a recipe. -/
theorem placed_op (op : Build.Op) (hop : op.Allowed (fun _ => True) fun _ => True) :
    Preserves (Progress.Placed S) (build op.run) :=
  placed_build (Builder.kept_placed.preserves_op (fun _ _ => trivial) hop)

/-- Every step that leaves the address of new blocks alone. -/
theorem Step.placed_run {s : Step} (hs : s.Stationary) :
    Preserves (Progress.Placed S) (s.run site temps) := by
  cases s with
  | moveTo addr => exact hs.elim
  | close c =>
    exact (Closing.preserves_of_ops placed_op fun exit _ =>
      placed_build (Build.placed_close exit)).bind fun _ => .pure _
  | save name =>
    intro p hp
    refine ⟨hp.builder, hp.pending, List.forall_mem_cons.2 ⟨?_, hp.saved⟩⟩
    exact ⟨hp.builder.instrAddr, hp.builder.current⟩
  | restore name =>
    intro p hp
    rw [Step.restore_apply]
    cases hsaved : p.saved.lookup name with
    | none => exact hp
    | some c =>
      have hc : c.Placed S := hp.saved _ (mem_of_lookup_eq_some hsaved)
      exact (placed_build (preserves_rollback fun b hb => hb.rollback hc)).bind (fun _ => .pure _)
        p hp
  | bind | load | prim | set | setIp | advance | store | emit | arch | fail | look =>
    exact Step.preserves_of_ops placed_op (fun _ _ => trivial) (fun _ _ => trivial) trivial
      (Step.emits_of fun _ _ => trivial)

/-- The arms wait, and they too leave the address alone. -/
theorem placed_queueArms (v : Value) {onTrue onFalse : Recipe}
    (htrue : onTrue.AllSteps Step.Stationary) (hfalse : onFalse.AllSteps Step.Stationary) :
    Preserves (Progress.Placed S) (queueArms v onTrue onFalse temps) := by
  refine (placed_build (Build.placed_split v)).bind fun arms p hp => ?_
  refine ⟨hp.builder, List.forall_mem_append.2 ⟨hp.pending, ?_⟩, hp.saved⟩
  exact List.forall_mem_cons.2 ⟨htrue, List.forall_mem_singleton.2 hfalse⟩

/-- A recipe whose steps do. -/
theorem placed_exec {settle : RunM Unit} (hsettle : Preserves (Progress.Placed S) settle)
    {r : Recipe} (hr : r.AllSteps Step.Stationary) (temps : Temps) :
    Preserves (Progress.Placed S) (exec site settle r temps) :=
  exec_preserves_of_allSteps (fun _ _ _ hp => ⟨hp.builder, hp.pending, hp.saved⟩)
    (fun _ _ hs => Step.placed_run hs) (fun e _ => preserves_evalTerm placed_op e)
    (fun v => placed_build (preserves_checkCondition v))
    (fun v _ _ _ htrue hfalse => (placed_queueArms v htrue hfalse).bind fun _ => hsettle) hr temps

/-- Every arm opens a block at the instruction at hand, and closes it at
its end. -/
theorem placed_drain : Preserves (Progress.Placed S) (drain site) := by
  refine drain_preserves (J := fun _ arm => arm.body.AllSteps Step.Stationary)
    (fun _ _ hp => hp.pending) (fun p pending hfewer hp => ?_) fun p arm harm => ?_
  · exact ⟨hp.builder, fun arm harm => hp.pending arm (hfewer harm), hp.saved⟩
  · have hleave : Preserves (Progress.Placed S) (build Build.closeIfOpen) :=
      placed_build (preserves_closeIfOpen (Build.placed_close .fetch))
    exact (placed_build (Build.placed_enter _ _)).bind
      (fun _ => (placed_exec (.pure ()) harm arm.temps).bind fun _ => hleave) p

/-- A whole recipe. -/
theorem placed_run {r : Recipe} (hr : r.AllSteps Step.Stationary) :
    Preserves (Builder.Placed S) (r.run site) := fun _ hb =>
  (placed_exec placed_drain hr [] _
    ⟨hb, fun _ h => absurd h List.not_mem_nil, fun _ h => absurd h List.not_mem_nil⟩).builder

end Recipe

/-- The instructions leave the address of new blocks alone. -/
def InstructionSet.Stationary (isa : InstructionSet) : Prop :=
  ∀ instr pc size, (isa.recipe instr pc size).AllSteps Recipe.Step.Stationary

namespace Disassembly

variable {src : Source} {limit count : Nat} {pc addr : Word} {regs : RegFile} {b : Builder}

/-- An instruction may open blocks at its own address, and going back may
open those from before it. -/
theorem placed_decodeOne (hisa : src.isa.Stationary) (hpc : S pc) :
    Preserves (Builder.Placed S) (decodeOne src pc) := by
  have hstep : Preserves (Builder.Placed S) (step src pc) := by
    refine Preserves.bind (fun _ hb => hb) fun found => ?_
    exact (Builder.kept_placed.emit trivial).bind fun _ =>
      (Recipe.placed_run (hisa found.1 pc found.2)).bind fun _ => .pure _
  exact decodeOne_preserves (Build.placed_close .fetch)
    (fun b hb => ⟨hpc, hb.current, hb.finished⟩) hstep
    (fun b hb => (hstep b hb).rollback ⟨hb.instrAddr, hb.current⟩) fun _ => Build.placed_close _

/-- Every block of a run starts where one of its instructions was decoded. -/
theorem Decodes.placed {pcs : List Word} {answer : Except BuildError (Option BuildError) × Builder}
    (h : Decodes src limit count pc b pcs answer) (hisa : src.isa.Stationary)
    (hpcs : ∀ a ∈ pcs, S a) (hb : b.Placed S) : answer.2.Placed S := by
  have hone {pc : Word} {b b' : Builder} {result : Except BuildError After} (hpc : S pc)
      (hdecode : decodeOne src pc b = (result, b')) (hb : b.Placed S) : b'.Placed S := by
    have hb' : (decodeOne src pc b).2.Placed S := placed_decodeOne hisa hpc b hb
    rwa [hdecode] at hb'
  induction h with
  | closed hdecode | failed hdecode => exact hone (hpcs _ List.mem_cons_self) hdecode hb
  | enough hdecode =>
    exact (Build.placed_close .fetch).bind (fun _ => .pure none) _
      (hone (hpcs _ List.mem_cons_self) hdecode hb)
  | more hdecode _ _ ih =>
    obtain ⟨hpc, hmore⟩ := List.forall_mem_cons.1 hpcs
    exact ih hmore (hone hpc hdecode hb)

/-- The first address is where the run starts. -/
theorem Decodes.mem_start {pcs : List Word}
    {answer : Except BuildError (Option BuildError) × Builder}
    (h : Decodes src limit count pc b pcs answer) : pc ∈ pcs := by
  cases h with
  | closed | failed | enough | more => exact List.mem_cons_self

/-! ### The numbers of blocks -/

/-- Nothing is lost of what was finished before, and numbers only grow. -/
theorem preserves_since_decodeFrom (src : Source) (b : Builder) (more : Nat) (pc : Word) :
    Preserves b.Since (decodeFrom src more pc) := by
  -- Closing a block adds to the finished ones.
  have hclose (exit : RegFile → Exit) : Preserves b.Since (Build.close exit) := fun b' hb' =>
    hb'.grows (Build.Grows.close exit b')
  refine decodeFrom_preserves (hclose .fetch) (fun pc => ?_) more pc
  refine decodeOne_preserves (hclose .fetch)
    (fun _ h => ⟨h.issued_le, h.next_le, h.ledger⟩) (preserves_since_step src pc b)
    (fun before hbefore => ?_) fun _ => hclose _
  exact (preserves_since_step src pc b before hbefore).rollback hbefore.ledger.length_le
    hbefore.next_le

/-- A run has blocks with numbers of their own, that no block had before
it. -/
theorem run_emitted {s s' : Session} {out : Disassembly} (hs : s.discovery.ledger.finished = [])
    (h : run src limit addr regs s = (.ok out, s')) :
    (out.blocks.map Block.index).Nodup ∧
      (∀ b ∈ out.blocks, b.index ∉ s.discovery.ledger.emitted) ∧
      s'.discovery.ledger.emitted =
        (out.blocks.map Block.index).reverse ++ s.discovery.ledger.emitted := by
  obtain ⟨failure, b, hdecode, rfl, rfl⟩ := run_eq_ok_iff.1 h
  have hsince : (Builder.start s.discovery addr regs).Since
      (decodeFrom src (limit - 1) addr (.start s.discovery addr regs)).2 :=
    preserves_since_decodeFrom src _ (limit - 1) addr _ (.refl _)
  rw [hdecode] at hsince
  obtain ⟨more, hfinished, hemitted, hnodup, hnew⟩ := hsince.ledger
  have hmore : b.ledger.finished = more := by
    rw [hfinished]
    exact hs ▸ List.nil_append more
  rw [← hmore] at hemitted hnodup hnew
  exact ⟨hnodup, hnew, hemitted⟩

end Disassembly

/-- Neither the rules nor the target's last change give a block another
number or another address. -/
def Target.KeepsPlace (t : Target) : Prop :=
  (∀ s b found, t.chain.classifyExit s b = .ok found →
    found.index = b.index ∧ found.addr = b.addr) ∧
  ∀ b, (t.amend.getD id b).index = b.index ∧ (t.amend.getD id b).addr = b.addr

/-- The rules of the library keep places. -/
theorem Target.keepsPlace_of_rules {t : Target}
    (hrules : ∀ r ∈ t.chain.rules, r ∈ Rule.conditionalReturn :: Rule.standard)
    (hamend : ∀ b, (t.amend.getD id b).index = b.index ∧ (t.amend.getD id b).addr = b.addr) :
    t.KeepsPlace := by
  refine ⟨fun s b found h => ?_, hamend⟩
  have hleads := Chain.classifyExit_leads hrules h
  exact ⟨hleads.index, hleads.addr⟩

namespace Explore

variable {task : Task} {p q : Progress} {v w : Visit}

section KeepsPlace

variable (hplace : task.target.KeepsPlace)

include hplace

/-- Neither amending nor pruning moves a block. -/
theorem finish_place (raw : FlowBlock) :
    (finish task raw).index = raw.index ∧ (finish task raw).addr = raw.addr := by
  obtain ⟨stmts, hpruned⟩ := pruneBlock_eq task.target.effects (task.target.amend.getD id raw)
  rw [finish, hpruned]
  exact hplace.2 raw

/-- A block is recorded under its own number and address. -/
theorem classified?_place {defs : Definitions} {b : Block} {found : FlowBlock}
    (h : classified? task defs b = some found) : found.index = b.index ∧ found.addr = b.addr := by
  obtain ⟨raw, hraw, rfl⟩ := classified?_eq_some h
  obtain ⟨hindex, haddr⟩ := hplace.1 _ _ _ hraw
  obtain ⟨hindex', haddr'⟩ := finish_place hplace raw
  exact ⟨hindex'.trans hindex, haddr'.trans haddr⟩

omit hplace in
/-- If the single results agree in something, so do the lists. -/
theorem map_eq_of_mapM {α β γ : Type} {f : α → Option β} {g : α → γ} {g' : β → γ} {xs : List α}
    {ys : List β} (hf : ∀ x y, f x = some y → g' y = g x) (h : xs.mapM f = some ys) :
    ys.map g' = xs.map g := by
  induction xs generalizing ys with
  | nil =>
    cases h
    rfl
  | cons x xs ih =>
    rw [List.mapM_cons] at h
    obtain ⟨y, hy, h⟩ := Option.bind_eq_some_iff.1 h
    obtain ⟨more, hmore, h⟩ := Option.bind_eq_some_iff.1 h
    cases h
    rw [List.map_cons, List.map_cons, hf x y hy, ih hmore]

/-- No two blocks that were found have the same number, and none of these
numbers will be given to a block again. -/
structure Progress.Distinct (p : Progress) : Prop where
  taken : p.Taken
  nodup : (p.blocks.map FlowBlock.index).Nodup
  emitted : ∀ b ∈ p.blocks, b.index ∈ p.session.discovery.ledger.emitted

/-- A run finds blocks with numbers that no block had before it. -/
theorem distinct_visit (hv : nextVisit? task p = some v) (hp : p.Distinct) : v.after.Distinct := by
  obtain ⟨rest, out, session, found, hfinds⟩ := exists_finds hv
  obtain ⟨hnodup, hnew, hemitted⟩ := Disassembly.run_emitted hp.taken hfinds.run
  have hindex : found.map FlowBlock.index = out.blocks.map Block.index :=
    map_eq_of_mapM (fun _ _ h => (classified?_place hplace h).1) hfinds.classified
  -- What was found before has numbers that had been given, the new blocks have not.
  have hapart : ∀ i ∈ p.blocks.map FlowBlock.index, ∀ j ∈ found.map FlowBlock.index, i ≠ j := by
    rintro _ hi j hj rfl
    obtain ⟨b, hb, hindexed⟩ := List.mem_map.1 hi
    rw [hindex] at hj
    obtain ⟨raw, hraw, hindexed'⟩ := List.mem_map.1 hj
    refine hnew raw hraw ?_
    rw [hindexed', ← hindexed]
    exact hp.emitted b hb
  constructor
  case taken => exact (taken_of_nextVisit? hv hp.taken).2
  case nodup =>
    rw [hfinds.blocks, List.map_append, List.nodup_append]
    exact ⟨hp.nodup, hindex ▸ hnodup, hapart⟩
  case emitted =>
    rw [hfinds.blocks, hfinds.discovery, hemitted]
    refine List.forall_mem_append.2 ⟨fun b hb => ?_, fun b hb => ?_⟩
    · exact List.mem_append_right _ (hp.emitted b hb)
    · refine List.mem_append_left _ (List.mem_reverse.2 ?_)
      rw [← hindex]
      exact List.mem_map_of_mem hb

/-- Whichever runs were made from the entry, the blocks have numbers of their
own. -/
theorem Makes.distinct {entry : Word} {visits : List Visit}
    (h : Makes task (atEntry task entry) visits q) : q.Distinct :=
  h.preserves (fun _ _ => distinct_visit hplace)
    ⟨rfl, List.nodup_nil, fun _ hb => absurd hb List.not_mem_nil⟩

/-- The blocks of a run start where it has decoded an instruction. -/
theorem exists_within_of_mem (hv : nextVisit? task p = some v) (hp : p.Taken)
    (hisa : task.isa.Stationary) {b : FlowBlock} (hb : b ∈ v.blocks) :
    ∃ pcs, v.Within task pcs ∧ b.addr ∈ pcs := by
  obtain ⟨rest, out, session, found, hfinds⟩ := exists_finds hv
  have htaken : v.before.Taken := by
    rw [Progress.Taken, hfinds.before]
    exact hp
  obtain ⟨pcs, hwithin⟩ : ∃ pcs, v.Within task pcs := Visit.exists_within htaken
  refine ⟨pcs, hwithin, ?_⟩
  have hdecodes := (hwithin.decodes pcs _).2 ⟨rfl, rfl⟩
  have hstart : (Builder.start v.before.session.discovery v.addr v.regs).Placed (· ∈ pcs) := by
    refine ⟨hdecodes.mem_start, fun _ heq => ?_, fun blk hblk => ?_⟩
    · cases heq
      exact hdecodes.mem_start
    · have hnil : v.before.session.discovery.ledger.finished = [] := htaken
      rw [show (Builder.start v.before.session.discovery v.addr v.regs).ledger.finished = _
        from hnil] at hblk
      cases hblk
  have hplaced := hdecodes.placed hisa (fun _ ha => ha) hstart
  rw [hfinds.own] at hb
  obtain ⟨raw, hraw, hclassified⟩ := exists_of_mem_mapM hfinds.classified hb
  obtain ⟨failure, b', hdecode, hout, -⟩ := Disassembly.run_eq_ok_iff.1 hfinds.run
  rw [hfinds.before, hdecode] at hplaced
  rw [hout] at hraw
  rw [(classified?_place hplace hclassified).2]
  exact hplaced.finished raw hraw

/-- The first block of a run has the address where the run started. -/
theorem exists_head (hv : nextVisit? task p = some v) (hp : p.Taken) :
    ∃ head arms, v.HeadsAt task v.addr ∧ v.blocks = head :: arms ∧ head.addr = v.addr := by
  have hheads := headsAt_visit (fun s b found h => (hplace.1 s b found h).2) hv hp
  have hfirst := hheads
  obtain ⟨-, _, _, _, _, raw, more, -, -, -, -, haddr, hblocks⟩ := hfirst
  exact ⟨finish task raw, more, hheads, hblocks, (finish_place hplace raw).2.trans haddr⟩

/-- Another run has a block that is taken for the first block of the run `v`.
It is not the other run's first block either. Its address is that of an
instruction which the other run has decoded on its way. -/
structure Visit.Shadows (task : Task) (w v : Visit) (b : FlowBlock) : Prop where
  arm : b ∈ w.blocks.tail
  addr : b.addr = v.addr
  elsewhere : w.addr ≠ v.addr
  decoded : task.isa.Stationary → ∃ pcs, w.Within task pcs ∧ v.addr ∈ pcs

/-- A block of another run at this address is not the first one of that
run, since no two runs start at the same address. -/
theorem Makes.shadows {entry : Word} {visits : List Visit}
    (h : Makes task (atEntry task entry) visits p) (hw : w ∈ visits) (hne : w.addr ≠ v.addr)
    {b : FlowBlock} (hb : b ∈ w.blocks) (haddr : b.addr = v.addr) : w.Shadows task v b := by
  obtain ⟨_, _, p', -, hearlier, hnext, -⟩ := h.split hw
  have htaken := (hearlier.distinct hplace).taken
  obtain ⟨head, arms, -, hblocks, hhead⟩ := exists_head hplace hnext htaken
  refine ⟨?_, haddr, hne, fun hisa => ?_⟩
  · rw [hblocks] at hb ⊢
    rcases List.mem_cons.1 hb with rfl | harm
    · exact absurd (hhead.symm.trans haddr) hne
    · exact harm
  · obtain ⟨pcs, hwithin, hmem⟩ := exists_within_of_mem hplace hnext htaken hisa hb
    exact ⟨pcs, hwithin, haddr ▸ hmem⟩

end KeepsPlace

/-- A function has a block at every address where one of its runs started.

It is the first block of that run if no block of an earlier run has the
same address. Otherwise it is an arm of an earlier run, one that started
elsewhere and came through the instruction at this address. -/
theorem exists_blockAt? {task : Task} (hplace : task.target.KeepsPlace) {entry : Word}
    {f : Function} {tally : Tally} (h : function task entry = (.ok f, tally)) :
    ∃ visits p, Makes task (atEntry task entry) visits p ∧
      f.blocks = visits.flatMap Visit.blocks ∧ (f.truncated = false → visits = runs task entry) ∧
      ∀ earlier v later, visits = earlier ++ v :: later →
        ∃ head arms b, v.HeadsAt task v.addr ∧ v.blocks = head :: arms ∧ head.addr = v.addr ∧
          f.blockAt? v.addr = some b ∧
          (b = head ↔ ∀ w ∈ earlier, ∀ c ∈ w.blocks, c.addr ≠ v.addr) ∧
          (b ≠ head → ∃ w ∈ earlier, w.Shadows task v b) := by
  obtain ⟨visits, p, hmakes, hblocks, -, hend⟩ := exists_makes_of_function h
  rw [hmakes.blocks_eq] at hblocks
  refine ⟨visits, p, hmakes, hblocks, fun hfull => ?_, ?_⟩
  · rcases hend with ⟨-, hnext⟩ | ⟨hcut, -⟩
    · -- All addresses have been worked off, so these are all the runs there are.
      exact hmakes.eq_runs hnext
    · rw [hcut] at hfull
      cases hfull
  rintro earlier v later rfl
  obtain ⟨p', hearlier, hv, -⟩ := hmakes.of_append
  have hp' := hearlier.distinct hplace
  obtain ⟨head, arms, hheads, hown, hhead⟩ := exists_head hplace hv hp'.taken
  have hbefore : p'.blocks = earlier.flatMap Visit.blocks := hearlier.blocks_eq
  have hmem (b : FlowBlock) : b ∈ p'.blocks ↔ ∃ w ∈ earlier, b ∈ w.blocks := by
    rw [hbefore, List.mem_flatMap]
  -- The blocks of the run stand behind those of the earlier ones.
  have hall : f.blocks = p'.blocks ++ head :: (arms ++ later.flatMap Visit.blocks) := by
    rw [hblocks, hbefore, List.flatMap_append, List.flatMap_cons, hown]
    rfl
  -- Its number is new, so the first block is not among the earlier ones.
  have hnew : head ∉ p'.blocks := by
    have hnodup := (distinct_visit hplace hv hp').nodup
    obtain ⟨-, hafter, -⟩ := Visit.step hv
    rw [hafter, hown, List.map_append, List.nodup_append] at hnodup
    exact fun hold => hnodup.2.2 _ (List.mem_map_of_mem hold) _ List.mem_cons_self rfl
  -- No two runs start at the same address.
  have helsewhere : ∀ w ∈ earlier, w.addr ≠ v.addr := by
    have hnodup := hmakes.nodup_addr
    rw [List.map_append, List.map_cons, List.nodup_append] at hnodup
    exact fun w hw => hnodup.2.2 _ (List.mem_map_of_mem hw) _ List.mem_cons_self
  cases hfind : p'.blocks.find? (·.addr == v.addr) with
  | none =>
    -- No earlier block has the address, so the first block of the run is found.
    refine ⟨head, arms, head, hheads, hown, hhead, ?_, ⟨fun _ w hw c hc haddr => ?_, fun _ => rfl⟩,
      fun hne => absurd rfl hne⟩
    · rw [Function.blockAt?, hall, List.find?_append, hfind, Option.none_or,
        List.find?_cons_of_pos (by simpa using hhead)]
    · exact List.find?_eq_none.1 hfind c ((hmem c).2 ⟨w, hw, hc⟩) (by simpa using haddr)
  | some b =>
    -- An earlier block is found in its place.
    have hb : b ∈ p'.blocks := List.mem_of_find?_eq_some hfind
    have haddr : b.addr = v.addr := by simpa using List.find?_some hfind
    obtain ⟨w, hw, hbw⟩ := (hmem b).1 hb
    refine ⟨head, arms, b, hheads, hown, hhead, ?_, ⟨fun heq => ?_, fun hnone => ?_⟩, fun _ => ?_⟩
    · rw [Function.blockAt?, hall, List.find?_append, hfind, Option.some_or]
    · exact absurd (heq ▸ hb) hnew
    · exact absurd haddr (hnone w hw b hbw)
    · exact ⟨w, hw, hearlier.shadows hplace hw (helsewhere w hw) hbw haddr⟩

/-- The first instruction does nothing, and the second goes back to itself
or returns, as the flag says. -/
def loopRecipe : UInt8 → Recipe
  | 1 => .step .advance .done
  | 2 => .branch (.leaf (.reg 4)) (.step (.setIp 0x1001) .done)
      (.step (.set 0 (.leaf (.reg 2))) .done) .done
  | _ => .step (.fail "unknown") .done

/-- Two instructions, of which the second is where the loop goes back to.
-/
def loopTask : Task where
  target :=
    { machine := diamondMachine
      recognizers := .linked diamondMachine
      entryValues := [(2, .returnAddr 32)] }
  isa :=
    { Instr := UInt8
      decode := fun bytes _ => bytes.head?.map (·, 1)
      recipe := fun instr _ _ => loopRecipe instr }
  image := .ofCode .little 0x1000 [1, 2]
  known := []

/-- Neither instruction moves the address of new blocks. -/
theorem loopRecipe_stationary (instr : UInt8) :
    (loopRecipe instr).AllSteps Recipe.Step.Stationary := by
  unfold loopRecipe
  split <;> simp [Recipe.AllSteps, Recipe.Step.Stationary]

/-- The task uses the standard rules and changes no block at the end. -/
theorem keepsPlace_loopTask : loopTask.target.KeepsPlace :=
  Target.keepsPlace_of_rules (fun _ => List.mem_cons_of_mem _) fun _ => ⟨rfl, rfl⟩

/-- The function has two runs, and each of them splits its block. What is
found at `0x1001` is an arm of the first run. -/
theorem exists_runs_loopTask :
    ∃ f tally w v, function loopTask 0x1000 = (.ok f, tally) ∧ f.truncated = false ∧
      runs loopTask 0x1000 = [w, v] ∧ w.addr = 0x1000 ∧ v.addr = 0x1001 ∧
      v.blocks.map FlowBlock.index = [3, 4, 5] ∧
      (f.blockAt? 0x1001).map FlowBlock.index = some 1 := by
  have hruns : ((runs loopTask 0x1000).map fun v => (v.addr, v.blocks.map FlowBlock.index)) =
      [(0x1000, [0, 1, 2]), (0x1001, [3, 4, 5])] := by decide +kernel
  obtain ⟨w, others, hw, hfirst, hothers⟩ := List.map_eq_cons_iff.1 hruns
  obtain ⟨v, none, rfl, hsecond, hnone⟩ := List.map_eq_cons_iff.1 hothers
  rw [List.map_eq_nil_iff.1 hnone] at hw
  rw [Prod.mk.injEq] at hfirst hsecond
  have hview : ((function loopTask 0x1000).1.toOption.map fun f =>
      (f.truncated, (f.blockAt? 0x1001).map FlowBlock.index)) = some (false, some 1) := by
    decide +kernel
  generalize function loopTask 0x1000 = answer at hview
  obtain ⟨result, tally⟩ := answer
  cases result with
  | error e => cases hview
  | ok f =>
    simp only [Except.toOption, Option.map_some, Option.some.injEq, Prod.mk.injEq] at hview
    exact ⟨f, tally, w, v, rfl, hview.1, hw, hfirst.1, hsecond.1, hsecond.2, hview.2⟩

/-- The second instruction is decoded in both runs. The second run starts
there, but the arm of the first run is found in its place. -/
theorem exists_blockAt?_loop :
    ∃ f tally w v, function loopTask 0x1000 = (.ok f, tally) ∧ runs loopTask 0x1000 = [w, v] ∧
      f.blockAt? 0x1000 = w.blocks.head? ∧
      ∃ b, f.blockAt? 0x1001 = some b ∧ v.blocks.head? ≠ some b ∧ w.Shadows loopTask v b ∧
        ∃ pcs, w.Within loopTask pcs ∧ 0x1001 ∈ pcs := by
  obtain ⟨f, tally, w, v, hf, hfull, hruns, hw, hv, hindices, hindex⟩ := exists_runs_loopTask
  obtain ⟨visits, p, -, -, hvisits, hat⟩ := exists_blockAt? keepsPlace_loopTask hf
  rw [hvisits hfull, hruns] at hat
  obtain ⟨_, _, _, -, hown, -, hfound, hiff, -⟩ := hat [] w [v] rfl
  obtain ⟨head, arms, b, -, hown', -, hfound', -, hshadows⟩ := hat [w] v [] rfl
  rw [hv] at hfound'
  rw [hfound', Option.map_some, Option.some.injEq] at hindex
  rw [hown', List.map_cons, List.cons.injEq] at hindices
  have hne : b ≠ head := by
    rintro rfl
    rw [hindex] at hindices
    exact absurd hindices.1 (by decide)
  obtain ⟨w', hmem, hshadow⟩ := hshadows hne
  rw [List.mem_singleton.1 hmem] at hshadow
  refine ⟨f, tally, w, v, hf, hruns, ?_, b, hfound', ?_, hshadow, ?_⟩
  · rw [← hw, hfound, hown, hiff.2 fun _ h => absurd h List.not_mem_nil]
    rfl
  · rw [hown', List.head?_cons]
    exact fun heq => hne (Option.some.inj heq).symm
  · rw [← hv]
    exact hshadow.decoded fun instr _ _ => loopRecipe_stationary instr

/-- So the block that is found where a run started need not be the run's
first block. -/
theorem not_forall_blockAt?_eq_head :
    ¬ ∀ (task : Task) (entry : Word) (f : Function) (tally : Tally), task.target.KeepsPlace →
      function task entry = (.ok f, tally) → f.truncated = false →
        ∀ v ∈ runs task entry, f.blockAt? v.addr = v.blocks.head? := by
  intro hall
  obtain ⟨f, tally, w, v, hf, hfull, hruns, -, hv, hindices, hindex⟩ := exists_runs_loopTask
  have hmem : v ∈ runs loopTask 0x1000 := by
    rw [hruns]
    exact List.mem_cons_of_mem w List.mem_cons_self
  have hhead := hall loopTask 0x1000 f tally keepsPlace_loopTask hf hfull v hmem
  rw [hv] at hhead
  rw [hhead, ← List.head?_map, hindices] at hindex
  cases hindex

end Explore

end FlowRecovery
