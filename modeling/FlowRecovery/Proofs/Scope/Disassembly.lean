import FlowRecovery.Proofs.Head
import FlowRecovery.Proofs.Scope.Recipe

/-!
# `FlowRecovery.Proofs.Scope.Disassembly`: the blocks of a run are scoped

A run of disassembly carries out one recipe after the other on the open
block. If all of them keep to their own paths, every block it finishes
reads only values that are known (`Disassembly.run_scoped`).

A decoding failure undoes its instruction. Whatever the instruction did
before it failed, it has only added to what was finished before, so rolling
back restores the state before it (`Builder.Whole.rollback`) except that
some numbers are used up.
-/

set_option autoImplicit false

namespace FlowRecovery

/-- Nothing waits to be taken, and every block that a number was handed out
for has been finished. This is so between two runs. -/
structure Discovery.AtRest (d : Discovery) : Prop where
  finished : d.ledger.finished = []
  sound : d.ledger.Sound
  counted : d.ledger.next = d.ledger.emitted.length

/-- Before the first run nothing has been handed out. -/
theorem Discovery.atRest_empty : Discovery.AtRest {} :=
  ⟨rfl, ⟨List.nodup_nil, fun _ h => absurd h List.not_mem_nil⟩, rfl⟩

/-- A run opens its first block with nothing assigned yet. -/
theorem Discovery.AtRest.start {d : Discovery} (h : d.AtRest) {known : List Value} {addr : Word}
    {regs : RegFile} (hregs : ∀ v ∈ regs.values, v.Known known) :
    (Builder.start d addr regs).Whole known d.issued := by
  have hnone : (Builder.start d addr regs).ledger.finished = [] := h.finished
  have hassigned : (Builder.start d addr regs).assigned = [] := by
    rw [Builder.assigned, hnone]
    rfl
  -- The head block takes one number, and it has been begun.
  refine ⟨⟨hnone ▸ trivial, trivial, ?_, ?_, hassigned ▸ List.nodup_nil, ?_, Nat.le_refl _⟩,
    h.sound.of_le rfl (Nat.le_succ _), congrArg (· + 1) h.counted⟩
  · intro blk hblk v hv
    cases hblk
    exact (hregs v hv).mono fun u hu => List.mem_append_left _ (List.mem_append_left _ hu)
  · intro blk hblk e he
    cases hblk
    cases he
  · intro id hid
    rw [hassigned] at hid
    cases hid

namespace Disassembly

variable {known : List Value} {n₀ : Nat} {src : Source} {pc : Word} {b b' : Builder}

/-- After an instruction the block is closed or stays as it is. -/
theorem conclude_whole {size : Nat} {after : After}
    (h : conclude src pc size b = (.ok after, b')) (hb : b.Whole known n₀) :
    b'.Whole known n₀ := by
  rcases conclude_eq_ok_iff.1 h with ⟨-, -, rfl⟩ | ⟨_, -, -, -, rfl⟩ | ⟨_, _, _, -, -, -, -, hclose⟩
  · exact hb
  · exact hb
  · exact hb.close hclose fun _ _ hv => hv

section Own

variable (hisa : ∀ instr addr size, (src.isa.recipe instr addr size).OwnPath {})
include hisa

/-- An instruction is marked and then carried out. -/
theorem step_whole {size : Nat} (h : step src pc b = (.ok size, b')) (hb : b.Whole known n₀) :
    b'.Whole known n₀ := by
  obtain ⟨instr, b₁, q, -, hemit, hstart, rfl⟩ := step_eq_ok_iff.1 h
  -- The marker reads nothing and assigns nothing.
  have hmarked := Build.emit_keeps hemit hb.rooted (fun v hv => absurd hv List.not_mem_nil) rfl
  have hlocal : Build.IsLocal False (Build.emit (.instruction pc size)) := .emit fun _ => rfl
  have hcontinues := hlocal.continues b
  rw [hemit] at hcontinues
  exact Recipe.start_whole hstart (hisa instr pc size) (hb.build (.of_continues hcontinues)
    hmarked.rooted)

/-- One instruction: carried out, or undone. -/
theorem decodeOne_whole {after : After} (h : decodeOne src pc b = (.ok after, b'))
    (hb : b.Whole known n₀) : b'.Whole known n₀ := by
  have hmoved : Builder.Whole known n₀ { b with instrAddr := pc } :=
    ⟨hb.rooted.congr rfl rfl (Nat.le_refl _), hb.ledger, hb.counted⟩
  rcases decodeOne_eq_ok_iff.1 h with
    ⟨size, b₁, hstep, hconclude⟩ | ⟨addr, reason, b₁, i, hstep, -, hclose⟩
  · exact conclude_whole hconclude (step_whole hisa hstep hmoved)
  · -- The block is closed as it was before the instruction.
    have hsince := step_since src pc { b with instrAddr := pc }
    rw [hstep] at hsince
    exact (hmoved.rollback hsince).close hclose fun _ _ hv => hv

/-- One instruction after the other, up to the limit. -/
theorem decodeFrom_whole {more : Nat} {failure : Option BuildError}
    (h : decodeFrom src more pc b = (.ok failure, b')) (hb : b.Whole known n₀) :
    b'.Whole known n₀ := by
  obtain ⟨n, pc', b₁, hpasses, hend⟩ := decodeFrom_eq_ok h
  have hb₁ := hpasses.induction (fun _ _ _ _ hone => decodeOne_whole hisa hone) hb
  rcases hend with ⟨-, hlast⟩ | ⟨i, -, hclose⟩
  · exact decodeOne_whole hisa hlast hb₁
  · exact hb₁.close hclose fun _ _ hv => hv

/-- The blocks of a run that starts from known registers are scoped, and
their assignments have new numbers. -/
theorem run_scoped {limit : Nat} {addr : Word} {regs : RegFile} {s s' : Session}
    {out : Disassembly} (h : run src limit addr regs s = (.ok out, s'))
    (hs : s.discovery.AtRest) (hregs : ∀ v ∈ regs.values, v.Known known) :
    RunScoped known out.blocks ∧
      ((out.blocks.flatMap Block.stmts).filterMap Stmt.assignId?).Nodup ∧
      (∀ id ∈ (out.blocks.flatMap Block.stmts).filterMap Stmt.assignId?,
        s.discovery.issued ≤ id ∧ id < s'.discovery.issued) ∧
      s.discovery.issued ≤ s'.discovery.issued ∧ s'.discovery.AtRest := by
  rw [run] at h
  cases hdecode : decodeFrom src (limit - 1) addr (Builder.start s.discovery addr regs) with
  | mk result b =>
    rw [hdecode] at h
    cases result with
    | error e => cases h
    | ok failure =>
      cases h
      have hb := decodeFrom_whole hisa hdecode (hs.start hregs)
      have hclosed := decodeFrom_closed hdecode
      have hsub : ((b.ledger.finished.flatMap Block.stmts).filterMap Stmt.assignId?).Sublist
          b.assigned :=
        List.Sublist.filterMap _ (List.sublist_append_left _ _)
      have hcounted : b.ledger.next = b.ledger.emitted.length := by
        rw [hb.counted, Builder.begun, hclosed]
        rfl
      exact ⟨hb.rooted.finished, hb.rooted.nodup.sublist hsub,
        fun id hid => hb.rooted.issued id (hsub.subset hid), hb.rooted.le_issued,
        rfl, hb.ledger.of_le rfl (Nat.le_refl _), hcounted⟩

end Own

end Disassembly

end FlowRecovery
