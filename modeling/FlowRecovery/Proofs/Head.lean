import FlowRecovery.Proofs.Failure
import FlowRecovery.Proofs.Operation
import FlowRecovery.Proofs.Rollback

/-!
# `FlowRecovery.Proofs.Head`: the first block of a run

A run opens its first block at the address it was asked to start from.
Whatever the instructions do, that block stays first: closing a block
changes nothing about the blocks before it, an arm opens its block behind
those already finished, and going back to a checkpoint drops blocks from
the end. So every run that succeeds has a first block, and it starts
where the run does (`Disassembly.run_head`).

More can be said of the first block than where it starts. A `BlockView` is
something to be seen of a block, in which statements make no difference
unless they mark an instruction. What is seen of the first block does not
change while a recipe is carried out that appends nothing to be seen
(`Recipe.exec_headed`).

Going back could still lose the first block, if a checkpoint counted on
finished blocks that another one has dropped. Such a checkpoint cannot be
returned to, which is what the proof for `restore` rests on.
-/

set_option autoImplicit false

namespace FlowRecovery

/-- The instruction that the statement marks, with its size. -/
def Stmt.mark? : Stmt → Option (Word × Nat)
  | .instruction addr size => some (addr, size)
  | .assign .. | .store .. | .arch .. | .comment _ => none

/-- Something to be seen of a block, from its address and its statements.
Statements that mark no instruction cannot be seen. -/
structure BlockView (β : Type) where
  see : Word → List Stmt → β
  unmarked : ∀ addr stmts s, s.mark? = none → see addr (stmts ++ [s]) = see addr stmts

namespace BlockView

variable {β : Type}

/-- Appended to a block, the statement cannot be seen. -/
def Hides (v : BlockView β) (s : Stmt) : Prop :=
  ∀ addr stmts, v.see addr (stmts ++ [s]) = v.see addr stmts

/-- No view sees a statement that marks no instruction. -/
theorem hides_of_unmarked (v : BlockView β) {s : Stmt} (h : s.mark? = none) : v.Hides s :=
  fun addr stmts => v.unmarked addr stmts s h

/-- Where the block starts. -/
def start : BlockView Word where
  see addr _ := addr
  unmarked _ _ _ _ := rfl

/-- Where a block starts does not depend on its statements. -/
theorem start_hides (s : Stmt) : start.Hides s := fun _ _ => rfl

end BlockView

variable {β : Type} {v : BlockView β} {x : β}

/-- What is seen of the blocks, the finished ones and the open one. -/
def Builder.views (v : BlockView β) (b : Builder) : List β :=
  b.ledger.finished.map (fun blk => v.see blk.addr blk.stmts) ++
    (b.current.map fun blk => v.see blk.addr blk.stmts).toList

/-- This is seen of the first block. -/
def Builder.Headed (v : BlockView β) (x : β) (b : Builder) : Prop :=
  (b.views v).head? = some x

/-- Unless blocks were finished at the checkpoint, this is seen of the open
one. -/
def Checkpoint.Headed (v : BlockView β) (x : β) (c : Checkpoint) : Prop :=
  c.finished = 0 → c.current.map (fun blk => v.see blk.addr blk.stmts) = some x

namespace Builder

variable {b b' : Builder}

/-- At the start of a run the first block is the one it opens. -/
theorem headed_start {d : Discovery} (hd : d.ledger.finished = []) (v : BlockView β) (addr : Word)
    (regs : RegFile) : (start d addr regs).Headed v (v.see addr []) := by
  show (d.ledger.finished.map _ ++ [v.see addr []]).head? = some (v.see addr [])
  rw [hd]
  rfl

/-- Before anything is finished, the first block is the open one. -/
theorem Headed.of_finished_nil (h : b.Headed v x) (hnil : b.ledger.finished = []) :
    b.current.map (fun blk => v.see blk.addr blk.stmts) = some x := by
  rw [Headed, views, hnil, List.map_nil, List.nil_append, Option.head?_toList] at h
  exact h

/-- A checkpoint remembers the open block, which is the first one if
nothing is finished. -/
theorem Headed.checkpoint (h : b.Headed v x) : b.checkpoint.Headed v x := fun hnone =>
  h.of_finished_nil (List.length_eq_zero_iff.1 hnone)

/-- The open block is replaced by one that looks the same. -/
theorem Headed.update {blk blk' : OpenBlock} (h : b.Headed v x) (hblk : b.current = some blk)
    (hfinished : b'.ledger.finished = b.ledger.finished) (hblk' : b'.current = some blk')
    (hsame : v.see blk'.addr blk'.stmts = v.see blk.addr blk.stmts) : b'.Headed v x := by
  rw [Headed, views, hblk] at h
  rw [Headed, views, hfinished, hblk', Option.map_some, hsame]
  exact h

/-- Work in the open block shows nothing new of it. -/
theorem kept_headed (v : BlockView β) (x : β) :
    Builder.Kept (fun _ => True) v.Hides (Builder.Headed v x) where
  write _ _ hblk h := h.update hblk rfl rfl rfl
  append hs hblk h := h.update hblk rfl rfl (hs _ _)
  name _ hblk h := h.update hblk rfl rfl (v.unmarked _ _ _ rfl)

/-- The open block moves to the end of the finished ones. -/
theorem Headed.push {blk : OpenBlock} {done : Block} (h : b.Headed v x)
    (hblk : b.current = some blk) (haddr : done.addr = blk.addr) (hstmts : done.stmts = blk.stmts)
    (hfinished : b'.ledger.finished = b.ledger.finished ++ [done]) (hclosed : b'.current = none) :
    b'.Headed v x ∧ b'.current = none := by
  refine ⟨?_, hclosed⟩
  rw [Headed, views, hblk] at h
  rw [Headed, views, hfinished, hclosed, List.map_append, List.map_singleton, haddr, hstmts]
  simpa using h

/-- Closing a block shows nothing new of it. -/
theorem Headed.close {exit : RegFile → Exit} {i : BlockIndex} (h : b.Headed v x)
    (hclose : Build.close exit b = (.ok i, b')) : b'.Headed v x ∧ b'.current = none := by
  obtain ⟨blk, hblk, -, l, hpush, rfl⟩ := Build.close_eq_ok_iff.1 hclose
  obtain ⟨-, rfl⟩ := Ledger.push_eq_ok_iff.1 hpush
  exact h.push hblk rfl rfl rfl rfl

/-- Neither does splitting it. -/
theorem Headed.split {cond : Value} {t f : BlockIndex} {regs : RegFile} (h : b.Headed v x)
    (hsplit : Build.split cond b = (.ok (t, f, regs), b')) :
    b'.Headed v x ∧ b'.current = none := by
  obtain ⟨blk, hblk, -, -, -, l, hpush, rfl⟩ := Build.split_eq_ok_iff.1 hsplit
  obtain ⟨-, rfl⟩ := Ledger.push_eq_ok_iff.1 hpush
  exact h.push hblk rfl rfl rfl rfl

/-- The end of an arm closes its block, unless that has been done. -/
theorem Headed.closeIfOpen (h : b.Headed v x) (hclose : Build.closeIfOpen b = (.ok (), b')) :
    b'.Headed v x ∧ b'.current = none := by
  rcases Build.closeIfOpen_eq_ok_iff.1 hclose with ⟨hclosed, rfl⟩ | ⟨i, hclose⟩
  · exact ⟨h, hclosed⟩
  · exact h.close hclose

/-- Behind finished blocks another one may be opened, or be there
already. -/
theorem Headed.of_finished (h : b.Headed v x) (hsome : b.current = none ∨ b.ledger.finished ≠ [])
    (hfinished : b'.ledger.finished = b.ledger.finished) : b'.Headed v x := by
  -- Whichever way, the first block is among the finished ones.
  have hfirst : (b.ledger.finished.map fun blk => v.see blk.addr blk.stmts).head? = some x := by
    rw [Headed, views] at h
    rcases hsome with hclosed | hsome
    · simpa [hclosed] using h
    · rwa [List.head?_append_of_ne_nil _ (by simpa using hsome)] at h
  -- From here on it does not matter which block is open.
  rw [Headed, views, hfinished, List.head?_append, hfirst]
  rfl

/-- Once all blocks are finished, the first one is among them. -/
theorem Headed.exists_first (h : b.Headed v x) (hclosed : b.current = none) :
    ∃ first rest, b.ledger.finished = first :: rest ∧ v.see first.addr first.stmts = x := by
  rw [Headed, views, hclosed] at h
  cases hfinished : b.ledger.finished with
  | nil =>
    rw [hfinished] at h
    cases h
  | cons first rest =>
    rw [hfinished] at h
    exact ⟨first, rest, rfl, Option.some.inj h⟩

/-- The start of an instruction is marked in the open block. -/
def mark (b : Builder) (pc : Word) (size : Nat) : Builder :=
  { b with
    current := b.current.map fun blk => { blk with stmts := blk.stmts ++ [.instruction pc size] } }

/-- The mark is the last statement of the open block. -/
theorem current_mark {blk : OpenBlock} (h : b.current = some blk) (pc : Word) (size : Nat) :
    (b.mark pc size).current = some { blk with stmts := blk.stmts ++ [.instruction pc size] } := by
  rw [mark, h]
  rfl

/-- Going back keeps the first block, provided the checkpoint counts on no
more finished blocks than there are. -/
theorem Headed.rollback {c : Checkpoint} (h : b.Headed v x) (hc : c.Headed v x)
    (hle : c.finished ≤ b.ledger.finished.length) : (b.rollback c).Headed v x := by
  show ((b.ledger.finished.take c.finished).map (fun blk => v.see blk.addr blk.stmts) ++
    (c.current.map fun blk => v.see blk.addr blk.stmts).toList).head? = some x
  by_cases hnone : c.finished = 0
  · -- Nothing was finished, so the first block is the one that was open.
    rw [hnone, List.take_zero, hc hnone]
    rfl
  · -- Some blocks stay, and the first of them is the one that was first.
    rw [Headed, views] at h
    cases hfinished : b.ledger.finished with
    | nil =>
      rw [hfinished] at hle
      exact absurd (Nat.le_zero.1 hle) hnone
    | cons first rest =>
      rw [hfinished] at h
      obtain ⟨kept, hkept⟩ := Nat.exists_eq_succ_of_ne_zero hnone
      rw [hkept, List.take_succ_cons]
      exact h

end Builder

namespace Recipe

variable {site : Site} {temps : Temps} {p p' : Progress}

/-- This is seen of the first block, and it will still be so after going
back to any of the checkpoints. The waiting arms append nothing that can
be seen. -/
structure Progress.Headed (v : BlockView β) (x : β) (p : Progress) : Prop where
  builder : p.builder.Headed v x
  pending : ∀ arm ∈ p.pending, arm.body.AllSteps (Step.Emits v.Hides)
  saved : ∀ entry ∈ p.saved, entry.2.Headed v x

/-- Work in the open block keeps what is seen, and touches neither arms nor
checkpoints. -/
theorem headed_op (op : Build.Op) (hop : op.Allowed (fun _ => True) v.Hides) :
    Preserves (Progress.Headed v x) (build op.run) := fun p hp =>
  ⟨(Builder.kept_headed v x).preserves_op (fun _ _ => v.hides_of_unmarked rfl) hop p.builder
    hp.builder, hp.pending, hp.saved⟩

/-- A term is evaluated by such work. -/
theorem Evaluates.headed (site : Site) {e : Term} {u : Value} {b : Builder}
    (h : Evaluates temps e p.builder u b) (hp : p.Headed v x) :
    Progress.Headed v x { p with builder := b } := by
  have hrun : evalTerm site temps e p = (.ok u, { p with builder := b }) :=
    evalTerm_eq_ok_iff.2 ⟨b, h, rfl⟩
  have hkept : Progress.Headed v x (evalTerm site temps e p).2 :=
    preserves_evalTerm headed_op e p hp
  rwa [hrun] at hkept

/-- What closing a block evaluates first happens in the open block. -/
theorem Closing.Builds.headed (site : Site) {c : Closing} {exit : RegFile → Exit} {b : Builder}
    (h : c.Builds temps p.builder exit b) (hp : p.Headed v x) :
    Progress.Headed v x { p with builder := b } := by
  cases h with
  | fetch | failed => exact hp
  | branch h => exact h.headed site hp
  | @arch _ args vs _ _ h =>
    have hrun : evalTerms site temps args p = (.ok vs, { p with builder := b }) :=
      evalTerms_eq_ok_iff.2 ⟨b, h, rfl⟩
    have hkept : Progress.Headed v x (evalTerms site temps args p).2 :=
      preserves_evalTerms headed_op args p hp
    rwa [hrun] at hkept

/-- No step changes what is seen of the first block, if it appends nothing
that can be seen. -/
theorem Step.headed_run {s : Step} {out : Temps × Outcome} (hs : s.Emits v.Hides)
    (h : s.run site temps p = (.ok out, p')) (hp : p.Headed v x) : p'.Headed v x := by
  -- Most steps only work in the open block.
  have hlocal (hoperates : s.Operates) : p'.Headed v x := by
    have hkept : Progress.Headed v x (s.run site temps p).2 :=
      Step.preserves_of_ops headed_op (fun _ _ => trivial) (fun _ _ => v.hides_of_unmarked rfl)
        hoperates hs p hp
    rwa [h] at hkept
  cases s with
  | close c =>
    obtain ⟨i, q, hrun, hpure⟩ := bind_eq_ok_iff.1 h
    obtain ⟨-, rfl⟩ := pure_eq_ok_iff.1 hpure
    obtain ⟨exit, b₁, b', hc, hclose, rfl⟩ := Closing.builds_of_run hrun
    have hb₁ := hc.headed site hp
    exact ⟨(hb₁.builder.close hclose).1, hp.pending, hp.saved⟩
  | moveTo addr =>
    cases h
    exact ⟨hp.builder, hp.pending, hp.saved⟩
  | save name =>
    cases h
    refine ⟨hp.builder, hp.pending, fun entry hentry => ?_⟩
    cases hentry with
    | head => exact hp.builder.checkpoint
    | tail _ hold => exact hp.saved entry hold
  | restore name =>
    rw [Step.restore_apply] at h
    cases hsaved : p.saved.lookup name with
    | none =>
      rw [hsaved] at h
      cases h
    | some c =>
      rw [hsaved] at h
      obtain ⟨_, b, hrollback, hpure⟩ := build_bind_eq_ok_iff.1 h
      obtain ⟨-, rfl⟩ := pure_eq_ok_iff.1 hpure
      obtain ⟨hle, rfl⟩ := Build.rollback_eq_ok_iff.1 hrollback
      -- The checkpoint counts on no more finished blocks than there are.
      have hc := hp.saved _ (mem_of_lookup_eq_some hsaved)
      exact ⟨hp.builder.rollback hc hle, hp.pending, hp.saved⟩
  | bind | load | prim | set | setIp | advance | store | emit | arch | fail | look =>
    exact hlocal trivial

/-- What happens once a split has closed the block and queued its
arms. -/
def HeadsOn (v : BlockView β) (x : β) (settle : RunM Unit) : Prop :=
  ∀ p p', settle p = (.ok (), p') → p.Headed v x → p.builder.current = none → p'.Headed v x

/-- Neither does a recipe. Induction on the recipe; what follows a split is
left to the parameter. -/
theorem exec_headed {settle : RunM Unit} (hsettle : HeadsOn v x settle) {r : Recipe}
    (hr : r.AllSteps (Step.Emits v.Hides)) (h : exec site settle r temps p = (.ok (), p'))
    (hp : p.Headed v x) : p'.Headed v x := by
  induction r generalizing temps p p' with
  | done =>
    cases h
    exact hp
  | step s rest ih =>
    obtain ⟨temps', out, q, hs, hrest⟩ := exec_step_eq_ok_iff.1 h
    have hq := Step.headed_run hr.1 hs hp
    exact ih hr.2 hrest ⟨hq.builder, hq.pending, hq.saved⟩
  | branch cond onTrue onFalse rest iht ihf ihr =>
    obtain ⟨htrue, hfalse, hafter⟩ := hr
    obtain ⟨u, b, q, hu, -, htakes, hrest⟩ := exec_branch_eq_ok h
    have hb : Progress.Headed v x { p with builder := b } := hu.headed site hp
    have hq : q.Headed v x := by
      cases htakes with
      | @arm taken hexec =>
        cases taken with
        | true => exact iht htrue hexec hb
        | false => exact ihf hfalse hexec hb
      | split _ hsplit hsettled =>
        obtain ⟨hheaded, hclosed⟩ := hb.builder.split hsplit
        -- The arms wait behind the others, and they too append nothing that can be
        -- seen.
        refine hsettle _ _ hsettled ⟨hheaded, ?_, hb.saved⟩ hclosed
        refine List.forall_mem_append.2 ⟨hb.pending, ?_⟩
        exact List.forall_mem_cons.2 ⟨htrue, List.forall_mem_singleton.2 hfalse⟩
    exact ihr hafter hrest ⟨hq.builder, hq.pending, hq.saved⟩

/-- An arm opens a block behind the finished ones, and closes it at its
end. -/
theorem Arm.headed_run {arm : Arm} (harm : arm.body.AllSteps (Step.Emits v.Hides))
    (h : arm.run site p = (.ok (), p')) (hp : p.Headed v x) (hclosed : p.builder.current = none) :
    p'.Headed v x ∧ p'.builder.current = none := by
  obtain ⟨q, b, hexec, hclose, rfl⟩ := Arm.run_eq_ok_iff.1 h
  have hq := exec_headed (fun _ _ h hp _ => (pure_eq_ok_iff.1 h).2 ▸ hp) harm hexec
    ⟨hp.builder.of_finished (Or.inl hclosed) rfl, hp.pending, hp.saved⟩
  obtain ⟨hheaded, hclosed⟩ := hq.builder.closeIfOpen hclose
  exact ⟨⟨hheaded, hq.pending, hq.saved⟩, hclosed⟩

/-- The arms of a split follow the block that was split. -/
theorem headsOn_drain (site : Site) : HeadsOn v x (drain site) := by
  intro p p' h hp hclosed
  refine drain_induction site (motive := fun p result => p.Headed v x →
    p.builder.current = none → ∀ p', result = (.ok (), p') → p'.Headed v x)
    ?_ ?_ ?_ p hp hclosed p' h
  · rintro p - hp - p' h
    cases h
    exact hp
  · rintro p arm rest q hpending hrun ih hp hclosed p' h
    obtain ⟨harm, hrest⟩ := List.forall_mem_cons.1 (hpending ▸ hp.pending)
    obtain ⟨hq, hclosed⟩ := Arm.headed_run harm hrun ⟨hp.builder, hrest, hp.saved⟩ hclosed
    exact ih hq hclosed p' h
  · rintro p arm rest e q - - - - p' h
    cases h

end Recipe

/-- What the instructions append as it is has the property. -/
def InstructionSet.Emits (E : Stmt → Prop) (isa : InstructionSet) : Prop :=
  ∀ instr pc size, (isa.recipe instr pc size).AllSteps (Recipe.Step.Emits E)

/-- The weaker the property, the more instructions have it. -/
theorem InstructionSet.Emits.imp {E F : Stmt → Prop} {isa : InstructionSet} (h : isa.Emits E)
    (himp : ∀ s, E s → F s) : isa.Emits F := by
  intro instr pc size
  refine (h instr pc size).imp fun s hs => Recipe.Step.emits_of fun t ht => ?_
  subst ht
  exact himp t hs

/-- No statement changes where a block starts. -/
theorem InstructionSet.emits_start (isa : InstructionSet) : isa.Emits BlockView.start.Hides :=
  fun _ _ _ => Recipe.allSteps_of_forall
    (fun _ => Recipe.Step.emits_of fun t _ => BlockView.start_hides t) _

namespace Disassembly

variable {src : Source} {pc addr : Word} {b b' : Builder}

/-- Whatever an instruction does, what was finished before it stays. -/
theorem preserves_since_step (src : Source) (pc : Word) (b : Builder) :
    Preserves b.Since (step src pc) := by
  have hrun (r : Recipe) (site : Recipe.Site) : Preserves b.Since (r.run site) := fun b₁ hb₁ =>
    (Recipe.since_exec Recipe.since_drain r [] { builder := b₁ }
      ⟨hb₁, fun _ h => absurd h List.not_mem_nil⟩).builder
  have hemit (s : Stmt) : Preserves b.Since (Build.emit s) := fun b₁ hb₁ =>
    hb₁.grows (Build.Grows.emit s b₁)
  have hfetch :
      Preserves b.Since (ExceptT.mk (pure (fetch src pc)) : Build (src.isa.Instr × Nat)) :=
    fun _ h => h
  exact hfetch.bind fun found => (hemit _).bind fun _ => (hrun _ _).bind fun _ => .pure found.2

/-- In particular nothing is lost of what was there when the instruction
began. -/
theorem step_since (src : Source) (pc : Word) (b : Builder) : b.Since (step src pc b).2 :=
  preserves_since_step src pc b b (.refl b)

/-- An instruction shows its marker in the open block, and nothing else. -/
theorem step_headed {size : Nat} (hisa : src.isa.Emits v.Hides)
    (h : step src pc b = (.ok size, b')) :
    ∃ instr, fetch src pc = .ok (instr, size) ∧
      ∀ x, (b.mark pc size).Headed v x → b'.Headed v x := by
  obtain ⟨instr, b₁, q, hfetch, hemit, hstart, rfl⟩ := step_eq_ok_iff.1 h
  refine ⟨instr, hfetch, fun x hmarked => ?_⟩
  obtain ⟨blk, hblk, hb₁⟩ := Build.emit_eq_ok_iff.1 hemit
  have hb₁ : b₁ = b.mark pc size := by
    rw [hb₁, Builder.mark, hblk]
    rfl
  have hstarted : Recipe.Progress.Headed v x { builder := b₁ } :=
    ⟨hb₁ ▸ hmarked, fun _ h => absurd h List.not_mem_nil, fun _ h => absurd h List.not_mem_nil⟩
  exact (Recipe.exec_headed (Recipe.headsOn_drain _) (hisa instr pc size) hstart hstarted).builder

/-- One instruction is carried out behind its marker, or it is undone and
its block is closed as it was before. -/
theorem decodeOne_headed {after : After} (hisa : src.isa.Emits v.Hides)
    (h : decodeOne src pc b = (.ok after, b')) :
    (∃ instr size, fetch src pc = .ok (instr, size) ∧
      (∀ x, (b.mark pc size).Headed v x → b'.Headed v x) ∧
      (after = .fallsThrough (nextPc pc size) ∨ after = .closed none ∧ b'.current = none)) ∨
    ∃ e, after = .closed (some e) ∧ (∀ x, b.Headed v x → b'.Headed v x) ∧ b'.current = none := by
  rcases decodeOne_eq_ok_iff.1 h with
    ⟨size, b₁, hstep, hconclude⟩ | ⟨_, reason, b₁, i, hstep, hafter, hclose⟩
  · left
    obtain ⟨instr, hfetch, hb₁⟩ := step_headed hisa hstep
    have hb₁ (x : β) (hx : (b.mark pc size).Headed v x) : b₁.Headed v x := hb₁ x hx
    refine ⟨instr, size, hfetch, ?_⟩
    rcases conclude_eq_ok_iff.1 hconclude with
      ⟨hclosed, hafter, rfl⟩ | ⟨_, -, -, hafter, rfl⟩ | ⟨_, _, i, -, -, -, hafter, hclose⟩
    · exact ⟨hb₁, Or.inr ⟨hafter, hclosed⟩⟩
    · exact ⟨hb₁, Or.inl hafter⟩
    · obtain ⟨_, -, -, _, -, hb'⟩ := Build.close_eq_ok_iff.1 hclose
      refine ⟨fun x hx => ((hb₁ x hx).close hclose).1, Or.inr ⟨hafter, ?_⟩⟩
      rw [hb']
  · -- Going back to where the instruction began undoes all of it.
    right
    have hsince := step_since src pc { b with instrAddr := pc }
    rw [hstep] at hsince
    have hundone (x : β) (hb : b.Headed v x) :
        (b₁.rollback { b with instrAddr := pc }.checkpoint).Headed v x := by
      rw [hsince.rollback_eq]
      exact hb
    obtain ⟨_, -, -, _, -, hb'⟩ := Build.close_eq_ok_iff.1 hclose
    refine ⟨_, hafter, fun x hx => ((hundone x hx).close hclose).1, ?_⟩
    rw [hb']

/-- A marker does not change where a block starts, so no instruction
does. -/
theorem decodeOne_start {after : After} (h : decodeOne src pc b = (.ok after, b'))
    (hb : b.Headed .start addr) :
    b'.Headed .start addr ∧ (b'.current = none ∨ ∃ next, after = .fallsThrough next) := by
  rcases decodeOne_headed src.isa.emits_start h with
    ⟨_, size, -, hkept, hafter⟩ | ⟨e, -, hkept, hclosed⟩
  · refine ⟨hkept addr ?_, ?_⟩
    · cases hblk : b.current with
      | none => exact hb.of_finished (Or.inl hblk) rfl
      | some blk => exact hb.update hblk rfl (Builder.current_mark hblk pc size) rfl
    · rcases hafter with hafter | ⟨-, hclosed⟩
      · exact Or.inr ⟨_, hafter⟩
      · exact Or.inl hclosed
  · exact ⟨hkept addr hb, Or.inl hclosed⟩

/-- So the first block starts where the run does, whichever way the run
ends. -/
theorem decodeFrom_start {more : Nat} {failure : Option BuildError}
    (h : decodeFrom src more pc b = (.ok failure, b')) (hb : b.Headed .start addr) :
    b'.Headed .start addr ∧ b'.current = none := by
  obtain ⟨n, pc', b₁, hpasses, hend⟩ := decodeFrom_eq_ok h
  have hb₁ : b₁.Headed .start addr :=
    hpasses.induction (fun _ _ _ _ hone hb => (decodeOne_start hone hb).1) hb
  rcases hend with ⟨-, hlast⟩ | ⟨i, -, hclose⟩
  · obtain ⟨hheaded, hclosed | ⟨next, hnext⟩⟩ := decodeOne_start hlast hb₁
    · exact ⟨hheaded, hclosed⟩
    · cases hnext
  · exact hb₁.close hclose

/-- A run that succeeds has a first block, and it starts where the run
does. -/
theorem run_head {limit : Nat} {regs : RegFile} {s s' : Session} {out : Disassembly}
    (hs : s.discovery.ledger.finished = []) (h : run src limit addr regs s = (.ok out, s')) :
    ∃ first rest, out.blocks = first :: rest ∧ first.addr = addr := by
  obtain ⟨failure, b, hdecode, rfl, -⟩ := run_eq_ok_iff.1 h
  obtain ⟨hheaded, hclosed⟩ := decodeFrom_start hdecode (Builder.headed_start hs .start addr regs)
  exact hheaded.exists_first hclosed

end Disassembly

end FlowRecovery
