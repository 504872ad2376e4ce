import FlowRecovery.Proofs.Operation
import FlowRecovery.Proofs.Rollback

/-!
# `FlowRecovery.Proofs.Reachable`: the builders there can be

Nothing checks a builder's parts against each other. That the table of
results is what it should be, say, rests on how the builder came about.
`Builder.Reachable` lists the ways: a run opens its first block, an
operation is carried out with whichever result, a block is closed, split
or entered, or the builder goes back to a checkpoint that some reachable
builder has given. The operations may be any, with any values.

An invariant has to be proved for these few cases, and one of the open block
for work in it alone (`Builder.Reachable.of_kept`). It then holds in every
state that a run passes through, in arms, after failures and after going
back (`Recipe.reachable_runAll`).
-/

set_option autoImplicit false

namespace FlowRecovery

/-- The builder can come about in a run. -/
inductive Builder.Reachable : Builder → Prop
  | start (d : Discovery) (addr : Word) (regs : RegFile) : Reachable (.start d addr regs)
  | operate {b : Builder} (h : Reachable b) (op : Build.Op) : Reachable (op.run b).2
  | close {b : Builder} (h : Reachable b) (exit : RegFile → Exit) :
      Reachable (Build.close exit b).2
  | split {b : Builder} (h : Reachable b) (cond : Value) : Reachable (Build.split cond b).2
  | enter {b : Builder} (h : Reachable b) (index : BlockIndex) (regs : RegFile) :
      Reachable (Build.enter index regs b).2
  /-- The checkpoint may be another builder's. -/
  | rollback {b c : Builder} (h : Reachable b) (hc : Reachable c) :
      Reachable (b.rollback c.checkpoint)

namespace Build

/-- No block is open once one has been closed, or refused. -/
theorem current_close (exit : RegFile → Exit) (b : Builder) :
    (close exit b).2.current = none := by
  cases hblk : b.current with
  | none =>
    rw [close, openBlock_bind_of_closed hblk]
    exact hblk
  | some blk =>
    rw [close_of_open hblk]
    split <;> rfl

/-- Splitting a block closes it. -/
theorem current_split (cond : Value) (b : Builder) : (split cond b).2.current = none := by
  cases hblk : b.current with
  | none =>
    rw [split, openBlock_bind_of_closed hblk]
    exact hblk
  | some blk =>
    rw [split, openBlock_bind_of_open hblk]
    show ((close (fun _ => .branch cond b.ledger.next (b.ledger.next + 1)) >>= fun _ =>
        pure (b.ledger.next, b.ledger.next + 1, blk.regs))
      { b with ledger := { b.ledger with next := b.ledger.next + 2 } }).2.current = none
    rw [bind_pure_snd]
    exact current_close _ _

end Build

/-- What holds of every block that has just been opened, and is kept by work
in it, holds of every open block there can be. -/
theorem Builder.Reachable.of_kept {P : OpenBlock → Prop}
    (hfresh : ∀ index addr regs, P { index, addr, regs })
    (hkept : Builder.Kept (fun _ => True) (fun _ => True) fun b =>
      ∀ blk, b.current = some blk → P blk)
    {b : Builder} (h : b.Reachable) : ∀ blk, b.current = some blk → P blk := by
  -- A property of the open block says nothing if there is none.
  have hclosed {b : Builder} (hb : b.current = none) : ∀ blk, b.current = some blk → P blk := by
    intro blk hblk
    rw [hb] at hblk
    cases hblk
  induction h with
  | start d addr regs =>
    intro blk hblk
    cases hblk
    exact hfresh _ addr regs
  | operate _ op ih =>
    have hrun (hput : op.StaysPut) (hemits : op.Emits fun _ => True) :=
      hkept.preserves_op (fun _ _ => trivial) (Build.Op.allowed_of hput hemits) _ ih
    cases op with
    | moveTo addr => exact ih
    | getRegister | setRegister | setIp | emit | evaluate | evaluateApp | evaluatePrim | load
    | store => exact hrun trivial trivial
  | close _ exit _ => exact hclosed (Build.current_close exit _)
  | split _ cond _ => exact hclosed (Build.current_split cond _)
  | enter _ index regs _ =>
    intro blk hblk
    cases hblk
    exact hfresh index _ regs
  -- Going back brings back the block of the checkpoint.
  | rollback _ _ _ ihc => exact ihc

namespace Recipe

variable {site : Site} {temps : Temps}

/-- Everything that the run holds or has passed through is reachable. -/
structure Progress.Reachable (p : Progress) : Prop where
  builder : p.builder.Reachable
  saved : ∀ entry ∈ p.saved, ∃ b : Builder, b.Reachable ∧ entry.2 = b.checkpoint
  trace : ∀ event ∈ p.trace, event.after.Reachable

/-- What the builder does, as part of a run, touches no checkpoint. -/
theorem reachable_build {α : Type} {x : Build α}
    (hx : ∀ b : Builder, b.Reachable → (x b).2.Reachable) :
    Preserves Progress.Reachable (build x) := fun p hp =>
  ⟨hx p.builder hp.builder, hp.saved, hp.trace⟩

/-- An operation on the open block. -/
theorem reachable_op (op : Build.Op) : Preserves Progress.Reachable (build op.run) :=
  reachable_build fun _ hb => hb.operate op

/-- Closing a block. -/
theorem reachable_close (exit : RegFile → Exit) :
    Preserves Progress.Reachable (build (Build.close exit)) :=
  reachable_build fun _ hb => hb.close exit

/-- Checking a condition. -/
theorem reachable_checkCondition (v : Value) :
    Preserves Progress.Reachable (build (Build.checkCondition v)) :=
  reachable_build (preserves_checkCondition v)

/-- Closing a block unless that has been done. -/
theorem reachable_closeIfOpen : Preserves Progress.Reachable (build Build.closeIfOpen) :=
  reachable_build (preserves_closeIfOpen fun _ hb => hb.close .fetch)

/-- Every step of a recipe. -/
theorem Step.reachable_run (s : Step) : Preserves Progress.Reachable (s.run site temps) := by
  have hop (op : Build.Op) (_ : op.Allowed (fun _ => True) fun _ => True) := reachable_op op
  cases s with
  | close c =>
    exact (Closing.preserves_of_ops hop fun exit _ => reachable_close exit).bind fun _ => .pure _
  | moveTo addr => exact (reachable_op (.moveTo addr)).bind fun _ => .pure _
  | save name =>
    intro p hp
    refine ⟨hp.builder, fun entry hentry => ?_, hp.trace⟩
    cases hentry with
    | head => exact ⟨p.builder, hp.builder, rfl⟩
    | tail _ hold => exact hp.saved entry hold
  | restore name =>
    intro p hp
    rw [Step.restore_apply]
    cases hsaved : p.saved.lookup name with
    | none => exact hp
    | some c =>
      -- The checkpoint has been given by a reachable builder.
      obtain ⟨b, hb, hc⟩ := hp.saved _ (mem_of_lookup_eq_some hsaved)
      refine (reachable_build (preserves_rollback fun b' hb' => ?_)).bind (fun _ => .pure _) p hp
      rw [show c = b.checkpoint from hc]
      exact hb'.rollback hb
  | bind | load | prim | set | setIp | advance | store | emit | arch | fail | look =>
    exact Step.preserves_of_ops hop (fun _ _ => trivial) (fun _ _ => trivial) trivial trivial

/-- Splitting a block and queueing its arms. -/
theorem reachable_queueArms (v : Value) (onTrue onFalse : Recipe) (temps : Temps) :
    Preserves Progress.Reachable (queueArms v onTrue onFalse temps) := by
  have hsplit : Preserves Progress.Reachable (build (Build.split v)) :=
    reachable_build fun _ hb => hb.split v
  exact hsplit.bind fun _ p hp => ⟨hp.builder, hp.saved, hp.trace⟩

/-- A recipe, with what follows its splits. -/
theorem reachable_exec {settle : RunM Unit} (hsettle : Preserves Progress.Reachable settle)
    (r : Recipe) (temps : Temps) : Preserves Progress.Reachable (exec site settle r temps) := by
  refine exec_preserves_of_allSteps (P := fun _ => True) (fun p step result hp => ?_)
    (fun s _ _ => s.reachable_run)
    (fun e _ => preserves_evalTerm (W := fun _ => True) (E := fun _ => True)
      (fun op _ => reachable_op op) e)
    reachable_checkCondition
    (fun v onTrue onFalse temps _ _ =>
      (reachable_queueArms v onTrue onFalse temps).bind fun _ => hsettle)
    (allSteps_of_forall (fun _ => trivial) r) temps
  -- The state after each step is noted, and has been reached.
  refine ⟨hp.builder, hp.saved, fun event hevent => ?_⟩
  cases hevent with
  | head => exact hp.builder
  | tail _ hold => exact hp.trace event hold

/-- Entering the block of an arm. -/
theorem reachable_enter (index : BlockIndex) (regs : RegFile) :
    Preserves Progress.Reachable (build (Build.enter index regs)) :=
  reachable_build fun _ hb => hb.enter index regs

/-- Working off the queue. -/
theorem reachable_drain (site : Site) : Preserves Progress.Reachable (drain site) :=
  drain_preserves (J := fun _ _ => True) (fun _ _ _ _ _ => trivial)
    (fun _ _ _ hp => ⟨hp.builder, hp.saved, hp.trace⟩) fun p arm _ =>
    (reachable_enter arm.index arm.regs).bind
      (fun _ => (reachable_exec (.pure ()) arm.body arm.temps).bind fun _ =>
        reachable_closeIfOpen) p

/-- Every action of a run. -/
theorem Action.reachable_run (a : Action) : Preserves Progress.Reachable a.run := by
  cases a with
  | perform level op =>
    cases level with
    | outermost => exact reachable_exec (reachable_drain op.site) op.recipe op.temps
    | arm => exact reachable_exec (.pure ()) op.recipe op.temps
  | leave => exact reachable_closeIfOpen
  | drain site => exact reachable_drain site
  | enter =>
    intro p hp
    rw [enter_apply]
    cases p.pending with
    | nil => exact hp
    | cons arm rest =>
      exact reachable_enter arm.index arm.regs { p with pending := rest }
        ⟨hp.builder, hp.saved, hp.trace⟩

/-- A run passes through reachable builders only, whatever is done in it,
in whichever order and with whichever results. -/
theorem reachable_runAll (d : Discovery) (addr : Word) (regs : RegFile) (actions : List Action) :
    (Action.runAll actions { builder := .start d addr regs }).2.Reachable :=
  Action.runAll_preserves (fun a _ => a.reachable_run)
    ⟨.start d addr regs, fun _ h => absurd h List.not_mem_nil, fun _ h => absurd h List.not_mem_nil⟩

end Recipe

end FlowRecovery
