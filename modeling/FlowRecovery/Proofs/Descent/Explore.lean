import FlowRecovery.Proofs.Recursion
import FlowRecovery.Proofs.Scope.Explore

/-!
# `FlowRecovery.Proofs.Descent.Explore`: explorations descend

Blocks are classified by walks through the definitions that all runs so far
have recorded, so the walks of an exploration end if those definitions
descend. They do, provided that instructions are handed values which mention
numbers taken by then (`Disassembly.Supplied`). This file carries that
through an exploration.

A run records assignments that read smaller numbers only
(`Disassembly.run_descends`). The registers that it leaves for the next runs
mention taken numbers too. They come from the exits of its blocks, from
rules that bring in nothing of their own (`Target.Faithful`), and from a
stack pointer that is moved back to an operand of its definition. All of
these stay within a scope that the definitions do not lead out of
(`Definitions.Descends.exists_scope`).
-/

set_option autoImplicit false

namespace FlowRecovery

/-! ### Definitions -/

/-- Whether a value is below a bound can be computed. -/
instance (n : Nat) (v : Value) : Decidable (v.Below n) :=
  decidable_of_iff (∀ id ∈ v.assignId?, id < n) Iff.rfl

namespace Definitions.Descends

variable {defs : Definitions} {n : Nat}

/-- The operands of a definition mention no greater number than the value
does that is defined. -/
theorem below_operand (h : defs.Descends) {v u : Value} (hv : v.Below n) {rhs : Rhs}
    (hrhs : defs.rhs? v = some rhs) (hu : u ∈ rhs.operands) : u.Below n := by
  obtain ⟨id, hid, hlookup⟩ := Option.bind_eq_some_iff.1 hrhs
  exact (h id rhs hlookup u hu).mono (Nat.le_of_lt (hv id hid))

/-- Values that mention numbers below `n` are in a scope of such values that
definitions do not lead out of. -/
theorem exists_scope (h : defs.Descends) {values : List Value} (hvalues : ∀ v ∈ values, v.Below n) :
    ∃ scope, defs.Closed scope ∧ (∀ v ∈ values, v.Known scope) ∧
      ∀ v : Value, v.Known scope → v.Below n := by
  -- Beside the values themselves it has every operand that is small enough.
  let operands := defs.assigned.flatMap fun entry => entry.2.operands
  have hscope : ∀ v ∈ values ++ operands.filter (·.Below n), v.Below n :=
    List.forall_mem_append.2 ⟨hvalues, fun v hv => of_decide_eq_true (List.mem_filter.1 hv).2⟩
  refine ⟨values ++ operands.filter (·.Below n), fun v hv rhs hrhs u hu => Or.inr ?_,
    fun v hv => Or.inr (List.mem_append_left _ hv), fun v hv => ?_⟩
  · have hsmall := h.below_operand (hscope v hv) hrhs hu
    obtain ⟨id, -, hlookup⟩ := Option.bind_eq_some_iff.1 hrhs
    refine List.mem_append_right _ (List.mem_filter.2 ⟨?_, decide_eq_true hsmall⟩)
    exact List.mem_flatMap.2 ⟨(id, rhs), mem_of_lookup_eq_some hlookup, hu⟩
  · exact hv.elim (fun hconstant => Value.below_of_constant hconstant n) (hscope v)

/-- One statement is recorded. If it assigns a number anew, the new
definition descends as well. -/
theorem recordStmt (h : defs.Descends) {s : Stmt} (hs : s.Descends) :
    (defs.recordStmt s).Descends := by
  cases s with
  | assign id ty rhs =>
    intro other rhs' hlookup
    rw [show (defs.recordStmt (.assign id ty rhs)).assigned = (id, rhs) :: defs.assigned from rfl,
      List.lookup_cons] at hlookup
    split at hlookup
    · rename_i hsame
      cases hlookup
      rw [eq_of_beq hsame]
      exact hs id rfl
    · exact h other rhs' hlookup
  | store | arch | instruction | comment => exact h

/-- Statements that descend are recorded. -/
theorem record (h : defs.Descends) {stmts : List Stmt} (hstmts : ∀ s ∈ stmts, s.Descends) :
    (defs.record stmts).Descends := by
  induction stmts generalizing defs with
  | nil => exact h
  | cons s rest ih =>
    obtain ⟨hs, hrest⟩ := List.forall_mem_cons.1 hstmts
    exact ih (h.recordStmt hs) hrest

end Definitions.Descends

/-! ### One run -/

namespace Disassembly

variable {src : Source} {pc : Word} {b b' : Builder}

/-- The instruction at `pc` is handed values that mention numbers below `n`,
and appends no assignment as it is. -/
def SuppliedAt (src : Source) (pc : Word) (n : Nat) : Prop :=
  ∀ instr size, fetch src pc = .ok (instr, size) → (src.isa.recipe instr pc size).Below n

/-- So is every instruction of a run that starts at `pc`. The values may
come from anywhere, as long as their numbers are taken by then. -/
def Supplied (src : Source) (limit : Nat) (pc : Word) (b : Builder) : Prop :=
  Throughout src limit pc b fun pc b => SuppliedAt src pc b.issued

/-- All that is built descends, and no number is given back. -/
theorem Passes.descends {n : Nat} {pc' : Word} (h : Passes src n pc b pc' b')
    (hsupplied : ∀ k pc' b', k < n → Passes src k pc b pc' b' → SuppliedAt src pc' b'.issued)
    (hb : b.Descends) : b'.Descends ∧ b.issued ≤ b'.issued := by
  induction h with
  | nil => exact ⟨hb, Nat.le_refl _⟩
  | cons hfirst _ ih =>
    have hpost := safe_decodeOne (hsupplied 0 _ _ (Nat.zero_lt_succ _) (.nil _ _)) _ hb
      (Nat.le_refl _)
    rw [hfirst] at hpost
    obtain ⟨hdescends, hle⟩ := ih (fun k pc' b' hk hpasses =>
      hsupplied (k + 1) pc' b' (Nat.succ_lt_succ hk) (.cons hfirst hpasses)) hpost.inv
    exact ⟨hdescends, Nat.le_trans hpost.le hle⟩

/-- The instructions of a run descend, up to its end: the last one has been
decoded, or the block was closed because there were enough. -/
theorem decodeFrom_descends {limit : Nat} {failure : Option BuildError}
    (h : decodeFrom src (limit - 1) pc b = (.ok failure, b')) (hsupplied : Supplied src limit pc b)
    (hb : b.Descends) : b'.Descends ∧ b.issued ≤ b'.issued := by
  -- Either the last instruction ends the run, or the limit does.
  obtain ⟨n, pc', b₁, hpasses, ⟨hn, hlast⟩ | ⟨hn, -, i, hclose⟩⟩ := decodeFrom_ends h
  · obtain ⟨hb₁, hle⟩ := hpasses.descends
      (fun k pc' b' hk => hsupplied k pc' b' (by omega)) hb
    have hpost := safe_decodeOne (hsupplied n pc' b₁ (by omega) hpasses) b₁ hb₁ (Nat.le_refl _)
    rw [hlast] at hpost
    exact ⟨hpost.inv, Nat.le_trans hle hpost.le⟩
  · obtain ⟨hb₁, hle⟩ := hpasses.descends
      (fun k pc' b' hk => hsupplied k pc' b' (by omega)) hb
    have hpost := Build.safe_close_fetch b₁ hb₁ (Nat.le_refl _)
    rw [hclose] at hpost
    exact ⟨hpost.inv, Nat.le_trans hle hpost.le⟩

/-- The blocks of a run descend, and mention numbers that are taken after
it. -/
theorem run_descends {limit : Nat} {addr : Word} {regs : RegFile} {s s' : Session}
    {out : Disassembly} (h : run src limit addr regs s = (.ok out, s'))
    (hs : s.discovery.ledger.finished = []) (hregs : regs.Below s.discovery.issued)
    (hsupplied : Supplied src limit addr (.start s.discovery addr regs)) :
    (∀ blk ∈ out.blocks, blk.Descends s'.discovery.issued) ∧
      s.discovery.issued ≤ s'.discovery.issued := by
  have hstart : (Builder.start s.discovery addr regs).Descends := by
    refine (Recipe.Progress.Descends.start addr (fun blk hblk => ?_) hregs).builder
    rw [hs] at hblk
    cases hblk
  obtain ⟨failure, b, hdecode, rfl, rfl⟩ := run_eq_ok_iff.1 h
  obtain ⟨hb, hle⟩ := decodeFrom_descends hdecode hsupplied hstart
  exact ⟨hb.finished, hle⟩

end Disassembly

/-! ### Run after run -/

namespace Explore

variable {task : Task} {p q : Progress} {visits : List Visit}

/-- The run is handed values whose numbers are taken by then. -/
def Visit.Supplied (task : Task) (v : Visit) : Prop :=
  Disassembly.Supplied task.source task.limits.maxInstructions v.addr
    (.start v.before.session.discovery v.addr v.regs)

/-- What is recorded descends, and the registers in the queue mention numbers
that have been taken. -/
structure Progress.Descends (p : Progress) : Prop where
  taken : p.Taken
  defs : p.defs.Descends
  queue : ∀ work ∈ p.worklist, work.2.Below p.session.discovery.issued

/-- At the entry nothing has been recorded. -/
theorem descends_atEntry (htarget : task.target.Faithful) (entry : Word) :
    (atEntry task entry).Descends := by
  refine ⟨rfl, fun _ _ h => ?_, List.forall_mem_singleton.2 fun v hv => ?_⟩
  · cases h
  · -- Nothing is assigned at entry, so no number is mentioned.
    have hknown := Target.entryState_known htarget entry [] v hv
    exact Value.below_of_constant (hknown.resolve_right List.not_mem_nil) 0

/-- The definitions that the blocks of a run are classified by. -/
theorem withBlocks_descends {n : Nat} {blocks : List Block} (hp : p.Descends)
    (hblocks : ∀ blk ∈ blocks, blk.Descends n) : (withBlocks p.defs blocks).Descends := by
  rw [withBlocks_eq_record]
  refine hp.defs.record fun s hs => ?_
  obtain ⟨blk, hblk, hs⟩ := List.mem_flatMap.1 hs
  exact (hblocks blk hblk).stmts s hs

/-- The work that a block leaves. -/
theorem newWork_below (htarget : task.target.Faithful) {defs : Definitions}
    (hdefs : defs.Descends) {b : Block} {n : Nat} (hb : b.Descends n) {found : FlowBlock}
    (h : classified? task defs b = some found) {visited : List Word} :
    ∀ work ∈ newWork task defs visited found, work.2.Below n := by
  intro work hwork v hv
  obtain ⟨scope, hclosed, hexit, hbelow⟩ := hdefs.exists_scope hb.exit
  exact hbelow v (newWork_known hclosed (classified_known htarget h hclosed hexit) work hwork v hv)

/-- Blocks are classified by definitions that stay as they are. -/
theorem defs_visitBlocks (task : Task) (blocks : List Block) (defs : Definitions) :
    Preserves (fun p : Progress => p.defs = defs) (blocks.forM (visitBlock task)) := by
  refine .forM fun b _ p hp => ?_
  cases hb : task.target.chain.classifyExit (task.setting p.defs) b with
  | error e =>
    rw [visitBlock_of_error hb]
    exact hp
  | ok raw =>
    rw [visitBlock_of_ok hb]
    exact hp

/-- A run records definitions that descend, also if one of its blocks cannot
be classified. -/
theorem visit_descends (hp : p.Descends) {addr : Word} {regs : RegFile}
    (hregs : regs.Below p.session.discovery.issued)
    (hsupplied : Disassembly.Supplied task.source task.limits.maxInstructions addr
      (.start p.session.discovery addr regs)) :
    (visit task addr regs p).2.defs.Descends := by
  cases hrun : Disassembly.run task.source task.limits.maxInstructions addr regs p.session with
  | mk result session =>
    cases result with
    | error e =>
      rw [visit_of_run_eq_error hrun]
      exact hp.defs
    | ok out =>
      obtain ⟨hblocks, -⟩ := Disassembly.run_descends hrun hp.taken hregs hsupplied
      rw [visit_of_run_eq_ok hrun,
        defs_visitBlocks task out.blocks (withBlocks p.defs out.blocks) (p.withRun out session) rfl]
      exact withBlocks_descends hp hblocks

/-- Between the runs, the queue loses an address and its registers. -/
theorem Progress.Descends.visiting (hp : p.Descends) {addr : Word} {regs : RegFile}
    {rest : List (Word × RegFile)}
    (hnext : nextUnvisited? p.visited p.worklist = some ((addr, regs), rest)) :
    (p.visiting addr rest).Descends ∧ regs.Below p.session.discovery.issued := by
  obtain ⟨hmem, hsub⟩ := mem_of_nextUnvisited? hnext
  exact ⟨⟨hp.taken, hp.defs, fun work hwork => hp.queue work (hsub hwork)⟩, hp.queue _ hmem⟩

/-- The registers of the blocks that are found go to the queue. -/
theorem descends_of_nextVisit? (htarget : task.target.Faithful) {v : Visit}
    (hv : nextVisit? task p = some v) (hp : p.Descends) (hsupplied : v.Supplied task) :
    v.after.Descends := by
  obtain ⟨-, htaken⟩ := taken_of_nextVisit? hv hp.taken
  obtain ⟨rest, hnext, hbefore, hvisit⟩ := nextVisit?_eq_some_iff.1 hv
  obtain ⟨hbefores, hregs⟩ := hp.visiting hnext
  rw [← hbefore] at hbefores
  have hdefs := visit_descends hbefores (by rw [hbefore]; exact hregs) hsupplied
  rw [hvisit] at hdefs
  -- What was queued before is still known, since no number has been given back.
  refine ⟨htaken, hdefs, fun work hwork => ?_⟩
  obtain ⟨out, session, found, tally, hrun, hfound, hafter⟩ := visit_eq_ok hvisit
  obtain ⟨hblocks, hle⟩ := Disassembly.run_descends hrun hbefores.taken
    (by rw [hbefore]; exact hregs) hsupplied
  rw [hafter] at hwork hdefs ⊢
  rcases List.mem_append.1 hwork with hold | hnew
  · exact (hbefores.queue work hold).mono hle
  · obtain ⟨block, hblock, hwork⟩ := List.mem_flatMap.1 hnew
    obtain ⟨b, hb, hclassified⟩ := exists_of_mem_mapM hfound hblock
    exact newWork_below htarget hdefs (hblocks b hb) hclassified work hwork

/-- The blocks of all runs are classified by definitions that descend. -/
theorem Makes.descends (htarget : task.target.Faithful) (h : Makes task p visits q)
    (hp : p.Descends) (hsupplied : ∀ v ∈ visits, v.Supplied task) :
    q.Descends ∧ ∀ v ∈ visits, v.after.defs.Descends := by
  induction h with
  | nil => exact ⟨hp, fun v hv => absurd hv List.not_mem_nil⟩
  | cons _ hv _ ih =>
    obtain ⟨hfirst, hmore⟩ := List.forall_mem_cons.1 hsupplied
    have hafter := descends_of_nextVisit? htarget hv hp hfirst
    obtain ⟨hq, hrest⟩ := ih hafter hmore
    exact ⟨hq, List.forall_mem_cons.2 ⟨hafter.defs, hrest⟩⟩

/-- So are those of a run that fails. -/
theorem Ends.descends {last : List Visit} {answer : Except ExploreError Unit × Progress}
    (h : Ends task q last answer) (hq : q.Descends) (hsupplied : ∀ v ∈ last, v.Supplied task) :
    ∀ v ∈ last, v.after.defs.Descends := by
  cases h with
  | done | cut => exact fun v hv => absurd hv List.not_mem_nil
  | failed _ hnext hvisit =>
    obtain ⟨hbefore, hregs⟩ := hq.visiting hnext
    have hdefs := visit_descends hbefore hregs (hsupplied _ List.mem_cons_self)
    rw [hvisit] at hdefs
    exact List.forall_mem_singleton.2 hdefs

end Explore

end FlowRecovery
