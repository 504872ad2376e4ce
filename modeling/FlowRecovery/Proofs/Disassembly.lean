import FlowRecovery.Disassembly
import FlowRecovery.Proofs.Recipe

/-!
# `FlowRecovery.Proofs.Disassembly`: what decoding does

A run of disassembly, opened up in the same way as the operations it is
made of. `decodeOne_eq_ok_iff` lists the ways in which one instruction
can end. A run is a number of instructions that control simply passes
through (`Passes`), and then one after which the block is closed
(`decodeFrom_ends`).
-/

set_option autoImplicit false

namespace FlowRecovery.Disassembly

variable {src : Source} {pc : Word} {b b' : Builder}

/-- Decoding and carrying out an instruction only adds, whether or not it
succeeds, if no recipe returns to a checkpoint. -/
theorem step_grows_of_heritable {P : Recipe → Prop} (hP : Recipe.Heritable P)
    (hisa : ∀ instr addr size, P (src.isa.recipe instr addr size)) (pc : Word) :
    Build.Grows (step src pc) := by
  refine Build.Grows.bind (fun b => .refl b) fun found => ?_
  refine (Build.Grows.emit _).bind fun _ => ?_
  refine Build.Grows.bind (fun b => ?_) fun _ => .pure found.2
  exact Recipe.start_grows hP _ (hisa found.1 pc found.2) b

/-- An instruction is found at an executable address whose bytes can be
decoded. -/
theorem fetch_eq_ok_iff {found : src.isa.Instr × Nat} :
    fetch src pc = .ok found ↔ src.image.isExecutable pc = true ∧
      ∃ bytes, src.image.bytesFrom pc = .ok bytes ∧ src.isa.decode bytes pc = some found := by
  unfold fetch
  cases src.image.isExecutable pc with
  | false => simp
  | true =>
    cases src.image.bytesFrom pc with
    | error e => simp
    | ok bytes => cases hdecode : src.isa.decode bytes pc <;> simp [hdecode]

/-- An instruction that is carried out: it is found, its start is marked,
and its recipe succeeds. -/
theorem step_eq_ok_iff {size : Nat} :
    step src pc b = (.ok size, b') ↔
      ∃ instr b₁ q, fetch src pc = .ok (instr, size) ∧
        Build.emit (.instruction pc size) b = (.ok (), b₁) ∧
        (src.isa.recipe instr pc size).start
          { machine := src.machine, image := src.image, addr := pc, size } b₁ = (.ok (), q) ∧
        b' = q.builder := by
  constructor
  · intro h
    obtain ⟨⟨instr, size'⟩, b₀, hfetch, h⟩ := bind_eq_ok_iff.1 h
    obtain ⟨⟨⟩, b₁, hemit, h⟩ := bind_eq_ok_iff.1 h
    obtain ⟨q, hstart, hpure⟩ := Recipe.run_bind_eq_ok_iff.1 h
    obtain ⟨rfl, rfl⟩ := pure_eq_ok_iff.1 hpure
    -- Fetching does not touch the builder.
    have hb₀ : b₀ = b := (congrArg Prod.snd hfetch).symm
    rw [hb₀] at hemit
    exact ⟨instr, b₁, q, congrArg Prod.fst hfetch, hemit, hstart, rfl⟩
  · rintro ⟨instr, b₁, q, hfetch, hemit, hstart, rfl⟩
    refine bind_eq_ok_iff.2 ⟨(instr, size), b, congrArg (·, b) hfetch, ?_⟩
    refine bind_eq_ok_iff.2 ⟨(), b₁, hemit, ?_⟩
    exact Recipe.run_bind_eq_ok_iff.2 ⟨q, hstart, rfl⟩

/-- The address after an instruction. -/
def nextPc (pc : Word) (size : Nat) : Word := pc + BitVec.ofNat 64 size

/-- After an instruction: it has closed the block itself, or control falls
through to the next one, or the block ends here. -/
theorem conclude_eq_ok_iff {size : Nat} {after : After} :
    conclude src pc size b = (.ok after, b') ↔
      (b.current = none ∧ after = .closed none ∧ b' = b) ∨
      (∃ blk, b.current = some blk ∧
        blk.regs.get? src.machine.ip = some (src.machine.addr (nextPc pc size)) ∧
        after = .fallsThrough (nextPc pc size) ∧ b' = b) ∨
      ∃ blk ip i, b.current = some blk ∧ blk.regs.get? src.machine.ip = some ip ∧
        ip ≠ src.machine.addr (nextPc pc size) ∧ after = .closed none ∧
        Build.close .fetch b = (.ok i, b') := by
  rw [conclude, get_bind_apply]
  cases hblk : b.current with
  | none =>
    rw [Builder.isOpen, hblk]
    simp [pure_eq_ok_iff]
  | some blk =>
    rw [Builder.isOpen, hblk]
    simp only [Option.isSome_some, if_true, bind_eq_ok_iff, Build.getRegister_eq_ok_iff, hblk]
    constructor
    · rintro ⟨ip, b₁, ⟨_, heq, hip, rfl⟩, hrest⟩
      cases heq
      split at hrest
      · -- The instruction pointer is right behind the instruction.
        rename_i hnext
        obtain ⟨rfl, rfl⟩ := pure_eq_ok_iff.1 hrest
        exact Or.inr (Or.inl ⟨blk, rfl, hnext ▸ hip, rfl, rfl⟩)
      · -- It is elsewhere, and the block is closed.
        rename_i hnext
        obtain ⟨i, b₂, hclose, hdone⟩ := bind_eq_ok_iff.1 hrest
        obtain ⟨rfl, rfl⟩ := pure_eq_ok_iff.1 hdone
        exact Or.inr (Or.inr ⟨blk, ip, i, rfl, hip, hnext, rfl, hclose⟩)
    · rintro (⟨h, -⟩ | ⟨_, heq, hip, rfl, rfl⟩ | ⟨_, ip, i, heq, hip, hnext, rfl, hclose⟩)
      · cases h
      · cases heq
        refine ⟨_, _, ⟨blk, rfl, hip, rfl⟩, ?_⟩
        rw [nextPc, if_pos rfl]
        rfl
      · cases heq
        refine ⟨ip, _, ⟨blk, rfl, hip, rfl⟩, ?_⟩
        rw [nextPc] at hnext
        rw [if_neg hnext]
        exact bind_eq_ok_iff.2 ⟨i, b', hclose, rfl⟩

/-- One instruction is carried out, or it fails to decode and is
undone. -/
theorem decodeOne_eq_ok_iff {after : After} :
    decodeOne src pc b = (.ok after, b') ↔
      (∃ size b₁, step src pc { b with instrAddr := pc } = (.ok size, b₁) ∧
        conclude src pc size b₁ = (.ok after, b')) ∨
      ∃ addr reason b₁ i, step src pc { b with instrAddr := pc } =
          (.error (.decode addr reason), b₁) ∧
        after = .closed (some (.decode addr reason)) ∧
        Build.close (.failed · pc reason)
          (b₁.rollback { b with instrAddr := pc }.checkpoint) = (.ok i, b') := by
  rw [decodeOne, modify_bind_apply, get_bind_apply]
  generalize { b with instrAddr := pc } = before
  rw [Build.attempt_bind_apply]
  cases step src pc before with
  | mk result b₁ =>
    cases result with
    | ok size =>
      constructor
      · intro h
        exact Or.inl ⟨size, b₁, rfl, h⟩
      · rintro (⟨_, _, h, hconclude⟩ | ⟨_, _, _, _, h, -⟩)
        · cases h
          exact hconclude
        · cases h
    | error e =>
      cases e with
      -- A broken rule is not caught.
      | violation v =>
        constructor
        · intro h
          exact absurd h Build.violate_ne_ok
        · rintro (⟨_, _, h, -⟩ | ⟨_, _, _, _, h, -⟩) <;> cases h
      | decode addr reason =>
        simp only [abandon, bind_assoc, bind_eq_ok_iff, modify_eq_ok_iff, pure_eq_ok_iff]
        constructor
        · rintro ⟨_, _, rfl, i, b₂, hclose, _, _, ⟨-, rfl⟩, rfl, rfl⟩
          exact Or.inr ⟨addr, reason, b₁, i, rfl, rfl, hclose⟩
        · rintro (⟨_, _, h, -⟩ | ⟨_, _, _, i, h, rfl, hclose⟩)
          · cases h
          · cases h
            exact ⟨⟨⟩, _, rfl, i, b', hclose, ⟨⟩, b', ⟨trivial, rfl⟩, rfl, rfl⟩

/-- Control goes on behind an instruction if a block is open and its
instruction pointer says so. -/
theorem decodeOne_eq_fallsThrough_iff {next : Word} :
    decodeOne src pc b = (.ok (.fallsThrough next), b') ↔
      ∃ size blk, step src pc { b with instrAddr := pc } = (.ok size, b') ∧
        next = nextPc pc size ∧ b'.current = some blk ∧
        blk.regs.get? src.machine.ip = some (src.machine.addr next) := by
  constructor
  · intro h
    rcases decodeOne_eq_ok_iff.1 h with ⟨size, b₁, hstep, hconclude⟩ | ⟨_, _, _, _, -, hafter, -⟩
    · rcases conclude_eq_ok_iff.1 hconclude with
        ⟨-, hafter, -⟩ | ⟨blk, hblk, hip, hafter, rfl⟩ | ⟨_, _, _, -, -, -, hafter, -⟩
      · cases hafter
      · cases hafter
        exact ⟨size, blk, hstep, rfl, hblk, hip⟩
      · cases hafter
    · cases hafter
  · rintro ⟨size, blk, hstep, rfl, hblk, hip⟩
    exact decodeOne_eq_ok_iff.2 (Or.inl ⟨size, b', hstep,
      conclude_eq_ok_iff.2 (Or.inr (Or.inl ⟨blk, hblk, hip, rfl, rfl⟩))⟩)

section Preserves

variable {I : Builder → Prop} (hclose : Preserves I (Build.close .fetch))

include hclose

/-- What closing keeps is kept after an instruction. -/
theorem conclude_preserves (pc : Word) (size : Nat) : Preserves I (conclude src pc size) := by
  intro b hb
  rw [conclude, get_bind_apply]
  cases hblk : b.current with
  | none =>
    rw [Builder.isOpen, hblk]
    exact hb
  | some blk =>
    rw [Builder.isOpen, hblk, Option.isSome_some, if_pos rfl, Build.getRegister, bind_assoc,
      Build.openBlock_bind_of_open hblk]
    cases blk.regs.get? src.machine.ip with
    | none => exact hb
    | some ip =>
      show I ((if ip = _ then _ else _ : Build After) b).2
      split
      · exact hb
      · exact hclose.bind (fun _ => .pure _) b hb

/-- What an instruction keeps is kept by decoding one, whichever way that
ends, if it lasts when a block is closed and when the instruction is
undone. -/
theorem decodeOne_preserves (hmove : ∀ b, I b → I { b with instrAddr := pc })
    (hstep : Preserves I (step src pc))
    (hundo : ∀ b, I b → I ((step src pc b).2.rollback b.checkpoint))
    (hfailed : ∀ reason, Preserves I (Build.close (.failed · pc reason))) :
    Preserves I (decodeOne src pc) := by
  intro b hb
  replace hb := hmove b hb
  rw [decodeOne, modify_bind_apply, get_bind_apply, Build.attempt_bind_apply]
  generalize { b with instrAddr := pc } = before at hb
  replace hstep := hstep before hb
  replace hundo := hundo before hb
  cases hresult : step src pc before with
  | mk result b₁ =>
    rw [hresult] at hstep hundo
    cases result with
    | ok size => exact conclude_preserves hclose pc size b₁ hstep
    | error e =>
      cases e with
      | violation v => exact hstep
      | decode addr reason =>
        -- The block goes back to what it was before the instruction.
        exact ((hfailed reason).bind fun _ => .pure ()).bind (fun _ => .pure _) _ hundo

/-- What decoding one instruction keeps is kept by a run. Induction on the
number of further instructions. -/
theorem decodeFrom_preserves (hone : ∀ pc, Preserves I (decodeOne src pc)) (more : Nat)
    (pc : Word) : Preserves I (decodeFrom src more pc) := by
  induction more generalizing pc with
  | zero =>
    refine (hone pc).bind fun after => ?_
    cases after with
    | closed failure => exact .pure _
    | fallsThrough next => exact hclose.bind fun _ => .pure _
  | succ more ih =>
    refine (hone pc).bind fun after => ?_
    cases after with
    | closed failure => exact .pure _
    | fallsThrough next => exact ih next

end Preserves

/-- Control passes through `n` instructions, one after the other. -/
inductive Passes (src : Source) : Nat → Word → Builder → Word → Builder → Prop
  | nil (pc : Word) (b : Builder) : Passes src 0 pc b pc b
  | cons {n : Nat} {pc next pc' : Word} {b b₁ b' : Builder}
      (h : decodeOne src pc b = (.ok (.fallsThrough next), b₁))
      (rest : Passes src n next b₁ pc' b') : Passes src (n + 1) pc b pc' b'

/-- What every single instruction preserves is preserved along the way. -/
theorem Passes.induction {P : Builder → Prop}
    (hone : ∀ pc next b b', decodeOne src pc b = (.ok (.fallsThrough next), b') → P b → P b')
    {n : Nat} {pc' : Word} (h : Passes src n pc b pc' b') (hb : P b) : P b' := by
  induction h with
  | nil => exact hb
  | cons hfirst _ ih => exact ih (hone _ _ _ _ hfirst hb)

/-- Wherever a run decodes an instruction that starts at `pc`, this holds of
the address and the state there. -/
def Throughout (src : Source) (limit : Nat) (pc : Word) (b : Builder)
    (P : Word → Builder → Prop) : Prop :=
  ∀ n pc' b', n < max 1 limit → Passes src n pc b pc' b' → P pc' b'

/-- The block numbers of a run fit in 32 bits. Numbers are given back only
where something is undone, so the greatest one in use is seen behind each
instruction. -/
def NumbersFit (src : Source) (limit : Nat) (pc : Word) (b : Builder) : Prop :=
  Throughout src limit pc b fun pc b =>
    (step src pc { b with instrAddr := pc }).2.ledger.next < 0x100000000

/-- After the instructions that are passed through, the run goes on as if
it started there. -/
theorem Passes.decodeFrom_eq {n : Nat} {pc' : Word} (h : Passes src n pc b pc' b') (more : Nat) :
    decodeFrom src (n + more) pc b = decodeFrom src more pc' b' := by
  induction h with
  | nil => rw [Nat.zero_add]
  | cons hfirst _ ih =>
    rw [Nat.add_right_comm, decodeFrom, bind_apply_of_ok hfirst]
    exact ih

/-- A run that stops with the instructions it has passed through closes
the block behind them. -/
theorem Passes.decodeFrom_stop {n : Nat} {pc' : Word} (h : Passes src (n + 1) pc b pc' b') :
    decodeFrom src n pc b = (Build.close .fetch >>= fun _ => pure none) b' := by
  induction n generalizing pc b with
  | zero =>
    cases h with
    | cons hfirst rest =>
      cases rest
      rw [decodeFrom, bind_apply_of_ok hfirst]
  | succ n ih =>
    cases h with
    | cons hfirst rest =>
      rw [decodeFrom, bind_apply_of_ok hfirst]
      exact ih rest

/-- A run that succeeds: some instructions are passed through, and either
the block is closed with the next one, or there are enough. -/
theorem decodeFrom_ends {more : Nat} {failure : Option BuildError}
    (h : decodeFrom src more pc b = (.ok failure, b')) :
    ∃ n pc' b₁, Passes src n pc b pc' b₁ ∧
      ((n ≤ more ∧ decodeOne src pc' b₁ = (.ok (.closed failure), b')) ∨
        n = more + 1 ∧ failure = none ∧ ∃ i, Build.close .fetch b₁ = (.ok i, b')) := by
  induction more generalizing pc b with
  | zero =>
    obtain ⟨after, b₁, hone, h⟩ := bind_eq_ok_iff.1 h
    cases after with
    | closed failure' =>
      obtain ⟨rfl, rfl⟩ := pure_eq_ok_iff.1 h
      exact ⟨0, pc, b, .nil pc b, Or.inl ⟨Nat.le_refl 0, hone⟩⟩
    | fallsThrough next =>
      obtain ⟨i, b₂, hclose, h⟩ := bind_eq_ok_iff.1 h
      obtain ⟨rfl, rfl⟩ := pure_eq_ok_iff.1 h
      exact ⟨1, next, b₁, .cons hone (.nil next b₁), Or.inr ⟨rfl, rfl, i, hclose⟩⟩
  | succ more ih =>
    obtain ⟨after, b₁, hone, h⟩ := bind_eq_ok_iff.1 h
    cases after with
    | closed failure' =>
      obtain ⟨rfl, rfl⟩ := pure_eq_ok_iff.1 h
      exact ⟨0, pc, b, .nil pc b, Or.inl ⟨Nat.zero_le _, hone⟩⟩
    | fallsThrough next =>
      obtain ⟨n, pc', b₂, hpasses, hend⟩ := ih h
      exact ⟨n + 1, pc', b₂, .cons hone hpasses,
        hend.imp (fun hlast => ⟨Nat.succ_le_succ hlast.1, hlast.2⟩)
          (fun hlast => ⟨congrArg Nat.succ hlast.1, hlast.2⟩)⟩

/-- The same without the number at which a run stops. -/
theorem decodeFrom_eq_ok {more : Nat} {failure : Option BuildError}
    (h : decodeFrom src more pc b = (.ok failure, b')) :
    ∃ n pc' b₁, Passes src n pc b pc' b₁ ∧
      ((n ≤ more ∧ decodeOne src pc' b₁ = (.ok (.closed failure), b')) ∨
        ∃ i, failure = none ∧ Build.close .fetch b₁ = (.ok i, b')) := by
  obtain ⟨n, pc', b₁, hpasses, hend⟩ := decodeFrom_ends h
  exact ⟨n, pc', b₁, hpasses,
    hend.imp id fun hlast => hlast.2.2.imp fun _ hclose => ⟨hlast.2.1, hclose⟩⟩

/-- A block that has been closed is not open. -/
theorem current_of_close {exit : RegFile → Exit} {i : BlockIndex}
    (h : Build.close exit b = (.ok i, b')) : b'.current = none := by
  obtain ⟨_, -, -, _, -, rfl⟩ := Build.close_eq_ok_iff.1 h
  rfl

/-- After the last instruction no block is open. -/
theorem decodeOne_closed {failure : Option BuildError}
    (h : decodeOne src pc b = (.ok (.closed failure), b')) : b'.current = none := by
  rcases decodeOne_eq_ok_iff.1 h with ⟨_, _, -, hconclude⟩ | ⟨_, _, _, _, -, -, hclose⟩
  · rcases conclude_eq_ok_iff.1 hconclude with
      ⟨hnone, -, rfl⟩ | ⟨_, -, -, hafter, -⟩ | ⟨_, _, _, -, -, -, -, hclose⟩
    · exact hnone
    · cases hafter
    · exact current_of_close hclose
  · exact current_of_close hclose

/-- After a run no block is open, whichever way it has ended. -/
theorem decodeFrom_closed {more : Nat} {failure : Option BuildError}
    (h : decodeFrom src more pc b = (.ok failure, b')) : b'.current = none := by
  obtain ⟨_, _, _, -, ⟨-, hlast⟩ | ⟨_, -, hclose⟩⟩ := decodeFrom_eq_ok h
  · exact decodeOne_closed hlast
  · exact current_of_close hclose

end FlowRecovery.Disassembly
