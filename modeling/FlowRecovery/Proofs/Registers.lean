import FlowRecovery.Proofs.Closure

/-!
# `FlowRecovery.Proofs.Registers`: register files stay well formed

A register file is well formed if it has one value of the right type for
every register of the machine, and literal zero in the register that
always reads as zero (`RegFile.WellFormed`).

Registers are written in three ways:

- construction drops writes to the zero register (`Build.setRegister`),
  so well-formed files are a law for blocks (`BlockLaw.registers`);
- a call leaves the zero register alone, unless it is also the
  instruction pointer or the stack pointer
  (`RegFile.WellFormed.postCallRegs`);
- any other successor moves the instruction pointer, whether or not that
  is the zero register (`RegFile.WellFormed.set`).

The last two are why a zero register that is also one of the two pointers
is not asked to hold zero (`Machine.ReadsZero`).
-/

set_option autoImplicit false

namespace FlowRecovery

/-- The register has `width` bits and always reads as zero. -/
structure Machine.ReadsZero (m : Machine) (r : Reg) (width : Nat) : Prop where
  zero : m.zero = some r
  ty : m.regTy? r = some (.bv width)
  ne_ip : r ≠ m.ip
  ne_sp : r ≠ m.sp

/-- There is one value of the right type for every register, and for
nothing else. What always reads as zero holds literal zero. -/
structure RegFile.WellFormed (m : Machine) (file : RegFile) : Prop where
  types : ∀ r, (file.get? r).map Value.ty = m.regTy? r
  zero : ∀ r width, m.ReadsZero r width → file.get? r = some (.ofWord width 0)

/-! ### Single files -/

namespace RegFile

variable {m : Machine} {file file' : RegFile} {r : Reg} {v : Value} {ty : Ty}

/-- A write of the right type keeps a file well formed, unless it is to the
zero register. -/
theorem WellFormed.set (h : file.WellFormed m) (hr : ∀ width, ¬ m.ReadsZero r width)
    (hset : file.set r v = .ok file') : file'.WellFormed m where
  types s := by
    obtain ⟨⟨held, hheld, hty⟩, -⟩ := set_eq_ok_iff.1 hset
    rw [get?_of_set hset]
    by_cases hs : s = r
    · rw [if_pos hs, ← h.types, hs, hheld, Option.map_some, Option.map_some, hty]
    · rw [if_neg hs, h.types]
  zero s width hzero := by
    have hs : s ≠ r := by
      rintro rfl
      exact hr width hzero
    rw [get?_of_set hset, if_neg hs, h.zero s width hzero]

/-- So does a write that is dropped if it does not fit. -/
theorem WellFormed.setIfFits (h : file.WellFormed m) (hr : ∀ width, ¬ m.ReadsZero r width)
    (v : Value) : (file.setIfFits r v).WellFormed m := by
  unfold RegFile.setIfFits
  split
  · rename_i hset
    exact h.set hr hset
  · exact h

/-- The instruction pointer is no such register. -/
theorem not_readsZero_ip (m : Machine) (width : Nat) : ¬ m.ReadsZero m.ip width :=
  fun h => h.ne_ip rfl

/-- A machine's entry values have the types of its registers, with zero in
the zero register. -/
theorem wellFormed_symbolic (m : Machine) : (symbolic m).WellFormed m where
  types r := by simp [get?_symbolic, Machine.regTy?, Function.comp_def]
  zero r width h := by
    obtain ⟨reg, hreg, hty⟩ := Option.map_eq_some_iff.1 h.ty
    rw [get?_symbolic, hreg, Option.map_some, hty]
    simp [entryValue, h.zero]

/-- A function is entered with a well-formed file, unless the target
itself asks for a value in the zero register. -/
theorem wellFormed_entryState {values : List (Reg × Value)}
    (hvalues : ∀ e ∈ values, ∀ width, ¬ m.ReadsZero e.1 width) (entry : Word) :
    (m.entryState entry values).WellFormed m := by
  refine List.foldlRecOn _ _ (wellFormed_symbolic m) fun file hfile e he => ?_
  cases he with
  | head => exact hfile.setIfFits (not_readsZero_ip m) _
  | tail _ he => exact hfile.setIfFits (hvalues e he) e.2

/-- What a call leaves in a register, unless that has another type. -/
theorem get?_postCallRegs (d : Definitions) (returnAddr : Word) (r : Reg) :
    (m.postCallRegs d file returnAddr).get? r = (file.get? r).map fun v =>
      if (m.afterCall d returnAddr r v).ty = v.ty then m.afterCall d returnAddr r v else v := by
  simp [Machine.postCallRegs, get?]

/-- A call comes back to a well-formed file. -/
theorem WellFormed.postCallRegs (h : file.WellFormed m) (d : Definitions) (returnAddr : Word) :
    (m.postCallRegs d file returnAddr).WellFormed m where
  types r := by
    rw [get?_postCallRegs, ← h.types, Option.map_map]
    refine Option.map_congr fun v _ => ?_
    show (if _ then _ else _ : Value).ty = v.ty
    split
    · assumption
    · rfl
  zero r width hzero := by
    -- A call does not touch the zero register.
    have hkept (v : Value) : m.afterCall d returnAddr r v = v := by
      simp [Machine.afterCall, hzero.ne_ip, hzero.ne_sp, hzero.zero]
    simp [get?_postCallRegs, hkept, h.zero r width hzero]

/-- A value of another type is refused. -/
theorem WellFormed.set_of_ne (h : file.WellFormed m) (hty : m.regTy? r = some ty)
    (hv : v.ty ≠ ty) : file.set r v = .error (.registerType r ty v.ty) := by
  rw [← h.types] at hty
  obtain ⟨held, hheld, rfl⟩ := Option.map_eq_some_iff.1 hty
  simp [RegFile.set, hheld, hv.symm]

/-- A value of the right type is not. -/
theorem WellFormed.set_of_eq (h : file.WellFormed m) (hv : m.regTy? r = some v.ty) :
    ∃ file', file.set r v = .ok file' ∧ file'.get? r = some v := by
  rw [← h.types] at hv
  obtain ⟨held, hheld, hty⟩ := Option.map_eq_some_iff.1 hv
  have hset : file.set r v = .ok ⟨file.values.set r v⟩ :=
    set_eq_ok_iff.2 ⟨⟨held, hheld, hty⟩, rfl⟩
  refine ⟨_, hset, ?_⟩
  rw [get?_of_set hset, if_pos rfl]

end RegFile

namespace Build

variable {m : Machine} {b : Builder} {blk : OpenBlock} {r : Reg} {v : Value} {ty : Ty}

/-- Writes to the zero register are dropped, whatever their type. -/
theorem setRegister_of_zero (hblk : b.current = some blk) (hzero : m.zero = some r) (v : Value) :
    setRegister m r v b = (.ok (), b) := by
  rw [setRegister, openBlock_bind_of_open hblk, if_pos hzero]
  rfl

/-- Any other write of the wrong type fails and changes nothing. -/
theorem setRegister_of_ne (hblk : b.current = some blk) (hfile : blk.regs.WellFormed m)
    (hzero : m.zero ≠ some r) (hty : m.regTy? r = some ty) (hv : v.ty ≠ ty) :
    setRegister m r v b = (.error (.violation (.registerType r ty v.ty)), b) := by
  rw [setRegister, openBlock_bind_of_open hblk, if_neg hzero, hfile.set_of_ne hty hv]
  rfl

/-- One of the right type is seen by the next read. -/
theorem setRegister_of_eq (hblk : b.current = some blk) (hfile : blk.regs.WellFormed m)
    (hzero : m.zero ≠ some r) (hv : m.regTy? r = some v.ty) :
    ∃ file, file.get? r = some v ∧
      setRegister m r v b = (.ok (), { b with current := some { blk with regs := file } }) := by
  obtain ⟨file, hset, hget⟩ := hfile.set_of_eq hv
  refine ⟨file, hget, ?_⟩
  rw [setRegister, openBlock_bind_of_open hblk, if_neg hzero, hset]
  rfl

end Build

/-! ### Construction -/

/-- All blocks have well-formed registers. -/
def BlockLaw.registers (m : Machine) : BlockLaw where
  stmt _ := True
  regs := RegFile.WellFormed m
  exit _ := True
  writable r := ∀ width, ¬ m.ReadsZero r width
  app _ _ _ _ _ := trivial
  load _ _ _ := trivial
  prim _ _ := trivial
  unnamed _ _ := trivial
  set _ _ _ _ h hr hset := h.set hr hset
  fetch _ := trivial
  branch _ _ _ := trivial
  arch _ _ _ := trivial

/-- The machine drops the writes that the law forbids. -/
theorem BlockLaw.admits_registers (m : Machine) : (BlockLaw.registers m).Admits m :=
  fun _ hr _ hzero => hr hzero.zero

/-- The law is about registers only, so no step can break it by what it
appends. -/
theorem Recipe.Step.lawful_registers (m : Machine) (s : Step) : s.Lawful (.registers m) :=
  lawful_of_emit (fun _ => trivial) fun _ _ => trivial

/-- The registers at the exits of the blocks that wait to be taken. -/
def Ledger.files (l : Ledger) : List RegFile :=
  l.finished.filterMap fun b => b.exit.regs?

/-- The registers of the open block, and those of the finished ones. -/
def Builder.files (b : Builder) : List RegFile :=
  b.regs?.toList ++ b.ledger.files

/-- The law for finished blocks is about their registers only. -/
theorem Ledger.lawful_iff {m : Machine} {l : Ledger} :
    (∀ b ∈ l.finished, b.Lawful (.registers m)) ↔ ∀ file ∈ l.files, file.WellFormed m := by
  constructor
  · intro h file hfile
    obtain ⟨b, hb, hregs⟩ := List.mem_filterMap.1 hfile
    exact (h b hb).regs file hregs
  · intro h b hb
    exact ⟨fun _ _ => trivial, fun file hregs => h file (List.mem_filterMap.2 ⟨b, hb, hregs⟩),
      trivial⟩

/-- All registers that a builder holds are well formed. -/
theorem Builder.Lawful.files {m : Machine} {b : Builder} (h : b.Lawful (.registers m)) :
    ∀ file ∈ b.files, file.WellFormed m := by
  intro file hfile
  rcases List.mem_append.1 hfile with hopen | hfinished
  · obtain ⟨blk, hblk, rfl⟩ := Option.map_eq_some_iff.1 (Option.mem_toList.1 hopen)
    exact (h.current blk hblk).regs
  · exact Ledger.lawful_iff.1 h.finished file hfinished

namespace Recipe

/-- All register files that a run has had and still has: in every state
that it has passed through, in the arms that wait, and in the checkpoints
that it can go back to. -/
def Progress.files (p : Progress) : List RegFile :=
  p.builders.flatMap Builder.files ++ p.pending.map Arm.regs ++
    p.saved.filterMap fun entry => entry.2.current.map OpenBlock.regs

/-- All registers that a run holds are well formed. -/
theorem Progress.Lawful.files {m : Machine} {p : Progress} (h : p.Lawful (.registers m)) :
    ∀ file ∈ p.files, file.WellFormed m := by
  intro file hfile
  rw [Progress.files, List.append_assoc, List.mem_append, List.mem_append] at hfile
  rcases hfile with hbuilt | hwaiting | hsaved
  · obtain ⟨b, hb, hfile⟩ := List.mem_flatMap.1 hbuilt
    exact (h.builders b hb).files file hfile
  · obtain ⟨arm, harm, rfl⟩ := List.mem_map.1 hwaiting
    exact (h.pending arm harm).regs
  · obtain ⟨entry, hentry, hfile⟩ := List.mem_filterMap.1 hsaved
    obtain ⟨blk, hblk, rfl⟩ := Option.map_eq_some_iff.1 hfile
    exact (h.saved entry hentry blk hblk).regs

/-- The action is carried out on this machine. -/
def Action.On (m : Machine) : Action → Prop
  | .perform _ op => op.site.machine = m
  | .drain site => site.machine = m
  | .enter | .leave => True

/-- On its own machine, every action keeps to the law. -/
theorem Action.On.lawful {m : Machine} {a : Action} (h : a.On m) : a.Lawful (.registers m) := by
  cases a with
  | perform level op =>
    have hm : op.site.machine = m := h
    exact ⟨hm ▸ BlockLaw.admits_registers m, allSteps_of_forall (Step.lawful_registers m) _⟩
  | drain site =>
    have hm : site.machine = m := h
    exact hm ▸ BlockLaw.admits_registers m
  | enter | leave => trivial

/-- Whatever is done, in whichever order and with whichever result. -/
theorem wellFormed_runAll {m : Machine} {d : Discovery}
    (hd : ∀ file ∈ d.ledger.files, file.WellFormed m) (addr : Word) {regs : RegFile}
    (hregs : regs.WellFormed m) {actions : List Action} (hactions : ∀ a ∈ actions, a.On m) :
    ∀ file ∈ (Action.runAll actions { builder := .start d addr regs }).2.files,
      file.WellFormed m := by
  have hstart : (Builder.start d addr regs).Lawful (.registers m) :=
    Builder.lawful_start (Ledger.lawful_iff.2 hd) addr hregs
  exact (Action.lawful_runAll (fun a ha => (hactions a ha).lawful)
    (Progress.lawful_of_builder hstart)).files

end Recipe

namespace Disassembly

/-- On its own machine, so does every source. -/
theorem lawful_registers {src : Source} {m : Machine} (hm : src.machine = m) :
    src.Lawful (.registers m) where
  machine := hm ▸ BlockLaw.admits_registers m
  recipes _ _ _ := Recipe.allSteps_of_forall (Recipe.Step.lawful_registers m) _

/-- One run gives and leaves behind well-formed files, whether or not it
succeeds. -/
theorem wellFormed_run {src : Source} {m : Machine} (hm : src.machine = m) (limit : Nat)
    (addr : Word) {regs : RegFile} (hregs : regs.WellFormed m) {s s' : Session}
    (hs : ∀ file ∈ s.discovery.ledger.files, file.WellFormed m)
    {result : Except BuildError Disassembly} (h : run src limit addr regs s = (result, s')) :
    (∀ out, result = .ok out → ∀ b ∈ out.blocks, ∀ file, b.exit.regs? = some file →
      file.WellFormed m) ∧
    ∀ file ∈ s'.discovery.ledger.files, file.WellFormed m := by
  obtain ⟨hout, hs'⟩ := lawful_session (lawful_registers hm) (fun _ _ _ => trivial) hregs
    (Ledger.lawful_iff.2 hs) h
  exact ⟨fun out ho b hb => (hout out ho b hb).regs, Ledger.lawful_iff.1 hs'⟩

end Disassembly

/-! ### Exploration -/

/-- What the target adds to classification gives a block the registers
that it has been handed, or none: its rules do, and so does its last
change to a block. -/
structure Target.KeepsRegs (t : Target) : Prop where
  rules : ∀ r ∈ t.chain.rules, ∀ c block, r.apply c = .ok (some block) →
    ∀ file, block.flow.regs? = some file → file = c.regs
  amend : ∀ b file, (t.amend.getD id b).flow.regs? = some file → b.flow.regs? = some file

/-- The rules of the library do. -/
theorem Target.keepsRegs_of_library {t : Target}
    (hrules : ∀ r ∈ t.chain.rules, r ∈ Rule.conditionalReturn :: Rule.standard)
    (hkeeps : t.KeepsFlow) : t.KeepsRegs where
  rules r hr c block happly file hfile := by
    rw [(Rule.leads (hrules r hr) happly).regs] at hfile
    exact (Option.some.inj hfile).symm
  amend b file hfile := (hkeeps b).1 ▸ hfile

/-- A classified block has the registers of its exit. -/
theorem Chain.regs_of_classifyExit {chain : Chain}
    (hrules : ∀ r ∈ chain.rules, ∀ c block, r.apply c = .ok (some block) →
      ∀ file, block.flow.regs? = some file → file = c.regs)
    {s : Setting} {b : Block} {found : FlowBlock} (h : chain.classifyExit s b = .ok found)
    {file : RegFile} (hfile : found.flow.regs? = some file) : b.exit.regs? = some file := by
  cases classifies_of_classifyExit h with
  | explained hexit hclassify =>
    rw [hexit]
    rcases exists_of_classify hclassify with ⟨r, hr, happly⟩ | rfl
    · rw [hrules r hr _ _ happly file hfile]
      rfl
    · exact hfile
  | unexplained hexit | branch hexit | failed hexit | arch hexit =>
    rw [hexit]
    exact hfile

namespace Explore

variable {task : Task}

/-- All register files that an exploration holds: those queued for
successors, those at the ends of its blocks, and those at the exits of
blocks that a failed run has left behind. -/
def Progress.files (p : Progress) : List RegFile :=
  p.worklist.map Prod.snd ++ p.blocks.filterMap (fun b => b.flow.regs?) ++
    p.session.discovery.ledger.files

/-- What the files of an exploration are, one place after the other. -/
theorem Progress.forall_files {p : Progress} {P : RegFile → Prop} :
    (∀ file ∈ p.files, P file) ↔ (∀ work ∈ p.worklist, P work.2) ∧
      (∀ b ∈ p.blocks, ∀ file, b.flow.regs? = some file → P file) ∧
      ∀ file ∈ p.session.discovery.ledger.files, P file := by
  simp only [Progress.files, List.mem_append, List.mem_map, List.mem_filterMap, or_imp, forall_and,
    forall_exists_index, and_imp, forall_apply_eq_imp_iff₂, and_assoc]
  refine and_congr_right fun _ => and_congr_left fun _ => ?_
  exact ⟨fun h b hb file hfile => h file b hb hfile, fun h file b hb hfile => h b hb file hfile⟩

variable {m : Machine}

/-- At the entry there is only the entry state. -/
theorem wellFormed_atEntry {entry : Word} (h : (task.target.entryState entry).WellFormed m) :
    ∀ file ∈ (atEntry task entry).files, file.WellFormed m := by
  refine Progress.forall_files.2 ⟨fun work hwork => ?_, fun _ hb => absurd hb List.not_mem_nil,
    fun _ hfile => absurd hfile List.not_mem_nil⟩
  rw [List.mem_singleton.1 hwork]
  exact h

variable (hm : task.target.machine = m)

include hm

/-- A successor is entered with a well-formed file if the block ends with
one. -/
theorem wellFormed_newWork {defs : Definitions} {visited : List Word} {b : FlowBlock}
    (hb : ∀ file, b.flow.regs? = some file → file.WellFormed m) :
    ∀ work ∈ newWork task defs visited b, work.2.WellFormed m := by
  intro work hwork
  obtain ⟨a, -, hsome⟩ := List.mem_filterMap.1 hwork
  split at hsome
  · cases hsome
  · obtain ⟨after, hafter, rfl⟩ := Option.map_eq_some_iff.1 hsome
    rw [edgeState?, hm] at hafter
    cases hregs : b.flow.regs? with
    | none =>
      rw [hregs] at hafter
      cases hafter
    | some regs =>
      simp only [hregs] at hafter
      have hfile := hb regs hregs
      split at hafter
      · -- After a call, the registers are what the callee leaves.
        cases hafter
        exact hfile.postCallRegs defs a
      · -- Otherwise only the instruction pointer has moved.
        cases hmoved : regs.set m.ip (m.addr a) with
        | error e =>
          rw [hmoved] at hafter
          cases hafter
        | ok moved =>
          rw [hmoved] at hafter
          cases hafter
          exact hfile.set (RegFile.not_readsZero_ip m) hmoved

variable (hkeeps : task.target.KeepsRegs)

include hkeeps

/-- One block is classified, finished and followed. -/
theorem wellFormed_visitBlock {b : Block}
    (hb : ∀ file, b.exit.regs? = some file → file.WellFormed m) :
    Preserves (fun p => ∀ file ∈ p.files, file.WellFormed m) (visitBlock task b) := by
  intro p hp
  rw [visitBlock, Chain.classifyBlock_apply]
  cases hfound : task.target.chain.classifyExit (task.setting p.defs) b with
  | error e => exact hp
  | ok raw =>
    -- The registers at the end of the block are those that it was closed with.
    have hflow : ∀ file, (finish task raw).flow.regs? = some file → file.WellFormed m := by
      intro file hfile
      obtain ⟨stmts, hpruned⟩ :=
        pruneBlock_eq task.target.effects (task.target.amend.getD id raw)
      rw [finish, hpruned] at hfile
      exact hb file (Chain.regs_of_classifyExit hkeeps.rules hfound (hkeeps.amend raw file hfile))
    obtain ⟨hqueue, hblocks, hrest⟩ := Progress.forall_files.1 hp
    refine Progress.forall_files.2 ⟨fun work hwork => ?_, fun other hother => ?_, hrest⟩
    · rcases List.mem_append.1 hwork with hold | hnew
      · exact hqueue work hold
      · exact wellFormed_newWork hm hflow work hnew
    · rcases List.mem_append.1 hother with hold | hnew
      · exact hblocks other hold
      · exact List.mem_singleton.1 hnew ▸ hflow

/-- So are the blocks of a run, one after the other. -/
theorem wellFormed_visit (addr : Word) {regs : RegFile} (hregs : regs.WellFormed m) :
    Preserves (fun p => ∀ file ∈ p.files, file.WellFormed m) (visit task addr regs) := by
  intro p hp
  obtain ⟨hqueue, hblocks, hrest⟩ := Progress.forall_files.1 hp
  cases hrun : Disassembly.run task.source task.limits.maxInstructions addr regs p.session with
  | mk result session =>
    obtain ⟨hout, hleft⟩ := Disassembly.wellFormed_run hm _ addr hregs hrest hrun
    cases result with
    | error e =>
      rw [visit_of_run_eq_error hrun]
      exact Progress.forall_files.2 ⟨hqueue, hblocks, hleft⟩
    | ok out =>
      rw [visit_of_run_eq_ok hrun]
      exact Preserves.forM (fun b hb => wellFormed_visitBlock hm hkeeps (hout out rfl b hb)) _
        (Progress.forall_files.2 ⟨hqueue, hblocks, hleft⟩)

/-- Whatever runs are made, and however the exploration ends. -/
theorem wellFormed_follow (limit : Nat) :
    Preserves (fun p => ∀ file ∈ p.files, file.WellFormed m) (follow task limit) := by
  refine follow_preserves (fun p addr regs rest hnext hp => ?_) (fun _ hp => hp) limit
  -- The next address leaves the queue with its registers.
  obtain ⟨hmem, hsub⟩ := mem_of_nextUnvisited? hnext
  obtain ⟨hqueue, hblocks, hrest⟩ := Progress.forall_files.1 hp
  refine wellFormed_visit hm hkeeps addr (hqueue _ hmem) _ ?_
  exact Progress.forall_files.2 ⟨fun work hwork => hqueue work (hsub hwork), hblocks, hrest⟩

/-- The blocks of a discovered function end with well-formed files. -/
theorem wellFormed_function {entry : Word} (hentry : (task.target.entryState entry).WellFormed m)
    {f : Function} {tally : Tally} (h : function task entry = (.ok f, tally)) :
    ∀ b ∈ f.blocks, ∀ file, b.flow.regs? = some file → file.WellFormed m := by
  obtain ⟨p, hfollow, rfl, -⟩ := follow_of_function h
  have hp := wellFormed_follow hm hkeeps task.limits.maxBlocks _ (wellFormed_atEntry hentry)
  rw [hfollow] at hp
  exact (Progress.forall_files.1 hp).2.1

end Explore

/-- Register files stay well formed.

Everything that construction holds on the way stays so, whatever is done
on the machine, in whichever order and with whichever result: the open
block, the finished ones, the arms that wait and the checkpoints. So do
the blocks of one run, and all that an exploration queues and finds,
however many runs it makes and however it ends, as long as the target
gives every block the registers that it has been handed. A function is
entered with a well-formed file if the target asks for no value in the
zero register.

A write of the wrong type fails and changes nothing, and one of the right
type is seen by the next read; a write to the zero register is always
dropped. -/
theorem registers_wellFormed (m : Machine) :
    (∀ (d : Discovery) (addr : Word) (regs : RegFile) (actions : List Recipe.Action),
      (∀ file ∈ d.ledger.files, file.WellFormed m) → regs.WellFormed m →
      (∀ a ∈ actions, a.On m) →
      ∀ file ∈ (Recipe.Action.runAll actions { builder := .start d addr regs }).2.files,
        file.WellFormed m) ∧
    (∀ (src : Disassembly.Source) (limit : Nat) (addr : Word) (regs : RegFile)
      (s s' : Disassembly.Session) (result : Except BuildError Disassembly),
      src.machine = m → regs.WellFormed m →
      (∀ file ∈ s.discovery.ledger.files, file.WellFormed m) →
      Disassembly.run src limit addr regs s = (result, s') →
      (∀ out, result = .ok out →
        ∀ b ∈ out.blocks, ∀ file, b.exit.regs? = some file → file.WellFormed m) ∧
      ∀ file ∈ s'.discovery.ledger.files, file.WellFormed m) ∧
    (∀ task : Explore.Task, task.target.machine = m → task.target.KeepsRegs →
      (∀ (limit : Nat) (p : Explore.Progress), (∀ file ∈ p.files, file.WellFormed m) →
        ∀ file ∈ (Explore.follow task limit p).2.files, file.WellFormed m) ∧
      ∀ entry f tally, (task.target.entryState entry).WellFormed m →
        Explore.function task entry = (.ok f, tally) →
        ∀ b ∈ f.blocks, ∀ file, b.flow.regs? = some file → file.WellFormed m) ∧
    (∀ (entry : Word) (values : List (Reg × Value)),
      (∀ e ∈ values, ∀ width, ¬ m.ReadsZero e.1 width) →
      (m.entryState entry values).WellFormed m) ∧
    ∀ (b : Builder) (blk : OpenBlock) (r : Reg) (v : Value),
      b.current = some blk → blk.regs.WellFormed m →
      (m.zero = some r → Build.setRegister m r v b = (.ok (), b)) ∧
      (m.zero ≠ some r → ∀ ty, m.regTy? r = some ty →
        (v.ty ≠ ty → blk.regs.set r v = .error (.registerType r ty v.ty) ∧
          Build.setRegister m r v b = (.error (.violation (.registerType r ty v.ty)), b)) ∧
        (v.ty = ty → ∃ file, file.get? r = some v ∧
          Build.setRegister m r v b =
            (.ok (), { b with current := some { blk with regs := file } }))) := by
  refine ⟨?_, ?_, ?_, ?_, ?_⟩
  · -- Any actions on a builder.
    intro d addr regs actions hd hregs hactions
    exact Recipe.wellFormed_runAll hd addr hregs hactions
  · -- One run of the disassembly.
    intro src limit addr regs s s' result hm hregs hs h
    exact Disassembly.wellFormed_run hm limit addr hregs hs h
  · -- The exploration, and the function that it returns.
    intro task hm hkeeps
    exact ⟨Explore.wellFormed_follow hm hkeeps,
      fun _ _ _ hentry h => Explore.wellFormed_function hm hkeeps hentry h⟩
  · -- The registers at entry.
    intro entry values hvalues
    exact RegFile.wellFormed_entryState hvalues entry
  · -- One write.
    intro b blk r v hblk hfile
    refine ⟨fun hzero => Build.setRegister_of_zero hblk hzero v, fun hzero ty hty => ?_⟩
    refine ⟨fun hv => ⟨hfile.set_of_ne hty hv, Build.setRegister_of_ne hblk hfile hzero hty hv⟩,
      fun hv => Build.setRegister_of_eq hblk hfile hzero ?_⟩
    rw [hv, hty]

/-- The fourth register always reads as zero. -/
def zeroMachine : Machine :=
  { Explore.diamondMachine with zero := some 3 }

/-- A function whose first instruction writes the zero register, and that
calls another one next. -/
def zeroTask : Explore.Task where
  target :=
    { machine := zeroMachine
      recognizers := .linked zeroMachine
      entryValues := [(2, .returnAddr 32)] }
  isa := Explore.retryIsa
  image := .ofCode .little 0x1000 [1, 2, 3, 4, 0, 0, 4]
  known := []

/-- A write to the zero register, one of the wrong type, one that is
undone, and one in an arm. -/
def zeroActions : List Recipe.Action :=
  let at_ (r : Recipe) : Recipe.Action :=
    .perform .outermost ⟨⟨zeroMachine, zeroTask.image, 0x1000, 1⟩, r, []⟩
  let write (r : Reg) (v : Value) : Recipe := .step (.set r (.leaf (.value v))) .done
  [at_ (.step (.save "here") .done), at_ (write 3 (.bool true)), at_ (write 2 (.bool true)),
    at_ (write 2 (.bv 32 5)), at_ (.step (.restore "here") .done),
    at_ (.branch (.leaf (.reg 4)) (write 2 (.bv 32 6)) .done .done)]

/-- The results, and what they leave behind. -/
def zeroRun : List (Except BuildError Unit) × Recipe.Progress :=
  Recipe.Action.runAll zeroActions
    { builder := .start {} 0x1000 (zeroTask.target.entryState 0x1000) }

/-- One of the writes fails, and no file is spoilt by any of them. After
the call the zero register still holds zero. -/
theorem registers_wellFormed_zero :
    (zeroRun.1.map fun result => result.toOption.isSome) = [true, true, false, true, true, true] ∧
    (∀ file ∈ zeroRun.2.files, file.get? 3 = some (.bv 32 0)) ∧
    (Explore.follow zeroTask 1 (Explore.atEntry zeroTask 0x1000)).2.worklist =
      [(0x1002, ⟨[.bv 32 0x1002, .initial 1 (.bv 32), .clobbered (.bv 32), .bv 32 0,
        .clobbered .bool]⟩)] ∧
    ∀ file ∈ (Explore.follow zeroTask 1 (Explore.atEntry zeroTask 0x1000)).2.files,
      file.WellFormed zeroMachine := by
  obtain ⟨hruns, -, hexplores, hentry, -⟩ := registers_wellFormed zeroMachine
  have hzero : zeroMachine.ReadsZero 3 32 := ⟨rfl, rfl, by decide, by decide⟩
  have hstart : (zeroTask.target.entryState 0x1000).WellFormed zeroMachine := by
    refine hentry 0x1000 [(2, .returnAddr 32)] fun e he width h => ?_
    rw [List.mem_singleton.1 he] at h
    exact absurd h.zero (by decide)
  have hkeeps : zeroTask.target.KeepsRegs :=
    Target.keepsRegs_of_library (fun _ => List.mem_cons_of_mem _) fun _ => ⟨rfl, rfl⟩
  have hactions : ∀ a ∈ zeroActions, a.On zeroMachine := by
    simp [zeroActions, Recipe.Action.On]
  refine ⟨by decide +kernel, fun file hfile => ?_, by decide +kernel, ?_⟩
  · rw [zeroRun] at hfile
    have hwell := hruns {} 0x1000 _ zeroActions (fun _ h => absurd h List.not_mem_nil) hstart
      hactions file hfile
    exact hwell.zero 3 32 hzero
  · exact (hexplores zeroTask rfl hkeeps).1 1 _ (Explore.wellFormed_atEntry hstart)

end FlowRecovery
