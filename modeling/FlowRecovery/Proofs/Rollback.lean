import FlowRecovery.Proofs.OpenBlock
import FlowRecovery.Proofs.Undo
import FlowRecovery.Proofs.Rename.Recipe

/-!
# `FlowRecovery.Proofs.Rollback`: what rolling back undoes

A checkpoint is taken somewhere in a run, any operations follow, and then
the run goes back to the checkpoint. This file says what is left of the
operations in between.

The builder is as it was, but for the assignment numbers that have been
taken. The arms that the operations have queued are still there: rolling
back does not look at the queue. Outside of all arms that makes no
difference, since a branch there works off its arms before it returns.
Inside an arm it does, and the arms that are left over wait for blocks
whose numbers have been given back.

If no arm is left over, nothing that is done later can tell the difference
(`rollback_undoes`). The reason is that everything a run ever does tracks
itself under a renaming of the numbers from the checkpoint on
(`Action.tracks_run`), and that nothing at the checkpoint mentions such a
number (`Reached.alike`).
-/

set_option autoImplicit false

namespace FlowRecovery.Recipe

/-! ### Runs -/

/-- Where in a run something is done. -/
inductive Level where
  /-- Outside of all arms. The arms of a branch are worked off at once. -/
  | outermost
  /-- Inside an arm. The arms of a branch wait. -/
  | arm
deriving DecidableEq

/-- What happens once a branch has queued its arms. -/
def Level.settle (site : Site) : Level → RunM Unit
  | .outermost => Recipe.drain site
  | .arm => pure ()

/-- A recipe with the place where it is carried out and the temporaries
that it starts with. A single operation is a recipe of one step. -/
structure Operation where
  site : Site
  recipe : Recipe
  temps : Temps

/-- Rename the recipe and the temporaries of an operation. -/
def Operation.rename (f : AssignId → AssignId) (op : Operation) : Operation :=
  { op with recipe := op.recipe.rename f, temps := Temps.rename f op.temps }

/-- What can happen in a run. -/
inductive Action where
  | perform (level : Level) (op : Operation)
  /-- Open the block of the first arm in the queue. -/
  | enter
  /-- Close the block of an arm, if it is still open. -/
  | leave
  /-- Work off the queue. -/
  | drain (site : Site)

namespace Action

/-- What an action does. -/
def run : Action → RunM Unit
  | .perform level op => exec op.site (level.settle op.site) op.recipe op.temps
  | .enter => do
    match (← get).pending with
    | [] => pure ()
    | arm :: rest =>
      modify fun p => { p with pending := rest }
      build (Build.enter arm.index arm.regs)
  | .leave => build Build.closeIfOpen
  | .drain site => Recipe.drain site

/-- Rename what an action carries. The queue is not part of it. -/
def rename (f : AssignId → AssignId) : Action → Action
  | .perform level op => .perform level (op.rename f)
  | .enter => .enter
  | .leave => .leave
  | .drain site => .drain site

/-- Entering depends on the queue. -/
theorem enter_apply (p : Progress) :
    Action.enter.run p =
      (match p.pending with
        | [] => pure ()
        | arm :: rest => do
          modify fun p => { p with pending := rest }
          build (Build.enter arm.index arm.regs) : RunM Unit) p := rfl

/-- Do one thing after the other, going on after failures. -/
def runAll : List Action → Progress → List (Except BuildError Unit) × Progress
  | [], p => ([], p)
  | a :: rest, p =>
    let (result, p) := a.run p
    let (results, p) := runAll rest p
    (result :: results, p)

end Action

/-- Do the operations one after the other, going on after failures. -/
def operate (level : Level) (ops : List Operation) (p : Progress) : Progress :=
  (Action.runAll (ops.map (.perform level)) p).2

end FlowRecovery.Recipe

namespace FlowRecovery

/-- It mentions no assignment from `n` on: renaming those changes
nothing. -/
def RegFile.Known (n : AssignId) (regs : RegFile) : Prop :=
  ∀ f : AssignId → AssignId, (∀ id < n, f id = id) → regs.rename f = regs

@[inherit_doc RegFile.Known]
def Block.Known (n : AssignId) (b : Block) : Prop :=
  ∀ f : AssignId → AssignId, (∀ id < n, f id = id) → b.rename f = b

@[inherit_doc RegFile.Known]
def Recipe.Operation.Known (n : AssignId) (op : Recipe.Operation) : Prop :=
  ∀ f : AssignId → AssignId, (∀ id < n, f id = id) → op.rename f = op

/-- A run can start from here: the registers and the blocks that earlier
runs have left mention known assignments, and what earlier runs have
finished comes before what this one will finish. -/
structure Discovery.Ready (d : Discovery) (regs : RegFile) : Prop where
  last : d.ledger.RemembersLast d.ledger.next
  blocks : ∀ b ∈ d.ledger.finished, b.Known d.issued
  regs : regs.Known d.issued

end FlowRecovery

namespace FlowRecovery.Recipe

/-- The states of a run. The operations may be any that mention known
assignments. -/
inductive Reached (d : Discovery) (addr : Word) (regs : RegFile) : Level → Progress → Prop where
  | start : Reached d addr regs .outermost { builder := .start d addr regs }
  | perform {level : Level} {p : Progress} {op : Operation} (h : Reached d addr regs level p)
      (hop : op.Known p.builder.issued) :
      Reached d addr regs level ((Action.perform level op).run p).2
  /-- A branch outside of all arms, up to where its arms are queued. -/
  | branch {p : Progress} {op : Operation} (h : Reached d addr regs .outermost p)
      (hop : op.Known p.builder.issued) :
      Reached d addr regs .arm ((Action.perform .arm op).run p).2
  | enter {p : Progress} (h : Reached d addr regs .arm p) :
      Reached d addr regs .arm (Action.enter.run p).2
  | leave {p : Progress} (h : Reached d addr regs .arm p) :
      Reached d addr regs .arm (Action.leave.run p).2
  | drain {p : Progress} (site : Site) (h : Reached d addr regs .arm p) :
      Reached d addr regs .outermost ((Action.drain site).run p).2

/-- Back from a later state to a checkpoint taken in `p`. The names of
checkpoints and the record of what was done are not the builder's. -/
def Progress.undo (p later : Progress) : Progress :=
  { p with
    builder := later.builder.rollback p.builder.checkpoint
    pending := later.pending }

/-! ### What was there before -/

/-- The run has what the builder had finished at some point, and so do
all the points it can go back to. -/
structure Progress.Since (b : Builder) (p : Progress) : Prop where
  builder : b.Since p.builder
  saved : ∀ entry ∈ p.saved,
    b.ledger.finished.length ≤ entry.2.finished ∧ b.ledger.next ≤ entry.2.next

variable {b : Builder} {site : Site} {temps : Temps}

/-- What only builds has all that was there. -/
theorem OnlyBuilds.since {α : Type} {x : RunM α} (hx : OnlyBuilds x) :
    Preserves (Progress.Since b) x := by
  intro p hp
  obtain ⟨b', hgrows, hp'⟩ := hx p
  rw [hp']
  exact ⟨hp.builder.grows hgrows, hp.saved⟩

/-- A step has all that was there, even one that goes back. -/
theorem Step.since_run (s : Step) : Preserves (Progress.Since b) (s.run site temps) := by
  cases s with
  | save name =>
    intro p hp
    refine ⟨hp.builder, fun entry hentry => ?_⟩
    cases hentry with
    | head => exact ⟨hp.builder.ledger.length_le, hp.builder.next_le⟩
    | tail _ hold => exact hp.saved entry hold
  | restore name =>
    intro p hp
    rw [Step.restore_apply]
    cases hsaved : p.saved.lookup name with
    | none => exact hp
    | some c =>
      -- It goes back to a point that has all of it too.
      obtain ⟨hfinished, hnext⟩ := hp.saved _ (mem_of_lookup_eq_some hsaved)
      refine Preserves.bind (fun q hq => ⟨?_, hq.saved⟩) (fun _ => .pure _) p hp
      rw [build_apply, Build.rollback_apply]
      split
      · exact hq.builder.rollback hfinished hnext
      · exact hq.builder
  | bind | load | prim | set | setIp | advance | store | emit | arch | close | fail | moveTo
  | look =>
    exact OnlyBuilds.since (Step.run_onlyBuilds trivial)

/-- So do new arms in the queue. -/
theorem since_queueArms (v : Value) (onTrue onFalse : Recipe) :
    Preserves (Progress.Since b) (queueArms v onTrue onFalse temps) :=
  (OnlyBuilds.build (.split v)).since.bind fun _ _ hp => ⟨hp.builder, hp.saved⟩

/-- A recipe, with what follows its splits. -/
theorem since_exec {settle : RunM Unit} (hsettle : Preserves (Progress.Since b) settle)
    (r : Recipe) (temps : Temps) : Preserves (Progress.Since b) (exec site settle r temps) :=
  exec_preserves (fun _ _ hp => ⟨hp.builder, hp.saved⟩) (fun s _ => s.since_run)
    (fun e _ => (evalTerm_onlyBuilds e).since)
    (fun v => (OnlyBuilds.build (.checkCondition v)).since)
    (fun v onTrue onFalse _ => (since_queueArms v onTrue onFalse).bind fun _ => hsettle) r temps

/-- An arm. -/
theorem Arm.since_run (site : Site) (arm : Arm) : Preserves (Progress.Since b) (arm.run site) :=
  (OnlyBuilds.build (.enter _ _)).since.bind fun _ =>
    (since_exec (.pure ()) arm.body arm.temps).bind fun _ =>
      (OnlyBuilds.build .closeIfOpen).since

/-- The whole queue. -/
theorem since_drain : Preserves (Progress.Since b) (drain site) :=
  drain_preserves (J := fun _ _ => True) (fun _ _ _ _ _ => trivial)
    (fun _ _ _ hp => ⟨hp.builder, hp.saved⟩) fun p arm _ => arm.since_run site p

/-! ### What is left of the operations -/

/-- A list of actions keeps what each of them keeps. -/
theorem Action.runAll_preserves {I : Progress → Prop} {actions : List Action}
    (h : ∀ a ∈ actions, Preserves I a.run) {p : Progress} (hp : I p) : I (runAll actions p).2 := by
  induction actions generalizing p with
  | nil => exact hp
  | cons a rest ih =>
    exact ih (fun c hc => h c (List.mem_cons_of_mem a hc)) (h a List.mem_cons_self p hp)

/-- The operations keep what each of them keeps. -/
theorem operate_preserves {I : Progress → Prop} {level : Level}
    (h : ∀ op, Preserves I (Action.perform level op).run) (ops : List Operation) {p : Progress}
    (hp : I p) : I (operate level ops p) := by
  refine Action.runAll_preserves (fun a ha => ?_) hp
  obtain ⟨op, -, rfl⟩ := List.mem_map.1 ha
  exact h op

/-- Operations that use checkpoints of their own leave what was there. -/
theorem since_operate (level : Level) (ops : List Operation) (p : Progress) :
    (operate level ops { p with saved := [] }).Since p.builder := by
  refine operate_preserves (fun op => ?_) ops ⟨.refl _, fun _ h => absurd h List.not_mem_nil⟩
  cases level with
  | outermost => exact since_exec since_drain op.recipe op.temps
  | arm => exact since_exec (.pure ()) op.recipe op.temps

/-- Outside of all arms the operations leave no arm behind. -/
theorem operate_outermost_settled (ops : List Operation) {p : Progress} (hp : p.Settled) :
    (operate .outermost ops p).Settled :=
  operate_preserves (fun op => exec_settled op.site op.recipe op.temps) ops hp

/-- The arms that wait are those that did, and others for blocks that the
builder has not handed out. -/
structure Progress.Queued (b : Builder) (waiting : List Arm) (p : Progress) : Prop where
  since : p.Since b
  pending : ∃ arms, p.pending = waiting ++ arms ∧ ∀ arm ∈ arms, b.ledger.next ≤ arm.index

variable {waiting : List Arm}

/-- What keeps the queue keeps the arms that wait. -/
theorem queued_of_since {α : Type} {x : RunM α} (hx : Preserves (Progress.Since b) x)
    (hqueue : KeepsQueue x) : Preserves (Progress.Queued b waiting) x := by
  intro p hp
  refine ⟨hx p hp.since, ?_⟩
  rw [hqueue p]
  exact hp.pending

/-- New arms go to the end of the queue, with new numbers. -/
theorem queued_queueArms (v : Value) (onTrue onFalse : Recipe) :
    Preserves (Progress.Queued b waiting) (queueArms v onTrue onFalse temps) := by
  intro p hp
  refine ⟨since_queueArms v onTrue onFalse p hp.since, ?_⟩
  obtain ⟨arms, hpending, hnew⟩ := hp.pending
  cases hqueue : queueArms v onTrue onFalse temps p with
  | mk result q =>
    cases result with
    | error e =>
      rw [queueArms_of_error hqueue]
      exact ⟨arms, hpending, hnew⟩
    | ok u =>
      -- The numbers of a split are the next ones.
      obtain ⟨t, f, regs, b', hsplit, rfl⟩ := queueArms_eq_ok_iff.1 hqueue
      obtain ⟨-, -, ht, hf, -⟩ := Build.split_eq_ok_iff.1 hsplit
      have hnext : b.ledger.next ≤ t := ht ▸ hp.since.builder.next_le
      have hnext' : b.ledger.next ≤ f := hf ▸ Nat.le_succ_of_le hp.since.builder.next_le
      refine ⟨arms ++ splitArms t f regs temps onTrue onFalse, ?_, ?_⟩
      · rw [← List.append_assoc, ← hpending]
      · intro arm harm
        cases List.mem_append.1 harm with
        | inl hold => exact hnew arm hold
        | inr hlast =>
          simp only [splitArms, List.mem_cons, List.not_mem_nil, or_false] at hlast
          cases hlast with
          | inl heq => exact heq ▸ hnext
          | inr heq => exact heq ▸ hnext'

/-- Inside an arm, what the operations leave behind waits behind what
waits already. -/
theorem queued_operate (ops : List Operation) (p : Progress) :
    (operate .arm ops { p with saved := [] }).Queued p.builder p.pending := by
  refine operate_preserves (fun op => ?_) ops
    ⟨since_operate .arm [] p, [], (List.append_nil _).symm, fun _ h => absurd h List.not_mem_nil⟩
  exact exec_preserves (fun _ _ hp => ⟨⟨hp.since.builder, hp.since.saved⟩, hp.pending⟩)
    (fun s temps => queued_of_since s.since_run (Step.run_keepsQueue op.site temps s))
    (fun e temps => queued_of_since (evalTerm_onlyBuilds e).since
      (evalTerm_keepsQueue op.site temps e))
    (fun v => queued_of_since (OnlyBuilds.build (.checkCondition v)).since (.build _))
    (fun v onTrue onFalse _ => (queued_queueArms v onTrue onFalse).bind fun _ => .pure ())
    op.recipe op.temps

/-- Outside of all arms no arm waits. -/
theorem Reached.settled {d : Discovery} {addr : Word} {regs : RegFile} {p : Progress}
    (h : Reached d addr regs .outermost p) : p.Settled := by
  generalize hlevel : Level.outermost = level at h
  induction h with
  | start => rfl
  | @perform level p op _ _ ih =>
    cases hlevel
    exact exec_settled op.site op.recipe op.temps p (ih rfl)
  | branch | enter | leave => cases hlevel
  | drain => rfl

/-! ### Nothing can tell -/

variable {ρ : Renumbering}

/-- Everything that can happen in a run tracks itself. -/
theorem Action.tracks_run (ρ : Renumbering) (a : Action) :
    Tracks ρ id a.run (a.rename ρ.name).run := by
  cases a with
  | perform level op =>
    cases level with
    | outermost => exact tracks_exec tracks_drain op.recipe op.temps
    | arm => exact tracks_exec (.pure id ()) op.recipe op.temps
  | leave => exact tracks_build .closeIfOpen
  | drain site => exact tracks_drain
  | enter =>
    refine ⟨fun p => ?_, fun p q h => ?_⟩
    · rw [enter_apply]
      cases p.pending with
      | nil => exact Nat.le_refl _
      | cons arm rest => exact Nat.le_refl _
    · -- Both queues are empty, or both have the same arm first.
      have hpending := h.pending
      rw [Action.rename, enter_apply, enter_apply]
      cases hp : p.pending with
      | nil =>
        rw [hp] at hpending
        rw [hpending]
        exact fun _ => ⟨h, rfl⟩
      | cons arm rest =>
        have harms := h.arms
        rw [hp] at hpending harms
        rw [hpending]
        refine (tracks_build (.enter (harms arm List.mem_cons_self) arm.regs)).follows
          { p with pending := rest } { q with pending := rest.map (Arm.rename ρ.name) } ?_
        exact ⟨h.builder, rfl, h.saved, h.trace,
          fun a ha => harms a (List.mem_cons_of_mem arm ha), h.checkpoints⟩

/-- Numbers of assignments are never given back. -/
theorem Action.runAll_counts (actions : List Action) (p : Progress) :
    p.builder.issued ≤ (runAll actions p).2.builder.issued := by
  refine runAll_preserves (I := fun q => p.builder.issued ≤ q.builder.issued) ?_ (Nat.le_refl _)
  exact fun a _ q hq => Nat.le_trans hq ((a.tracks_run .still).counts q)

/-- A list of actions has the same results under the renaming, and leads to
states that are alike. -/
theorem Action.runAll_follows (actions : List Action) {p q : Progress} (h : p.Alike ρ q)
    (hle : (runAll actions p).2.builder.issued ≤ ρ.limit) :
    (runAll actions p).2.Alike ρ (runAll (actions.map (rename ρ.name)) q).2 ∧
      (runAll (actions.map (rename ρ.name)) q).1 = (runAll actions p).1 := by
  induction actions generalizing p q with
  | nil => exact ⟨h, rfl⟩
  | cons a rest ih =>
    obtain ⟨hstate, hresult⟩ := (a.tracks_run ρ).follows p q h
      (Nat.le_trans (runAll_counts rest (a.run p).2) hle)
    obtain ⟨hfinal, hresults⟩ := ih hstate hle
    refine ⟨hfinal, ?_⟩
    have hsame : ((a.rename ρ.name).run q).1 = (a.run p).1 := by
      rw [hresult]
      cases (a.run p).1 <;> rfl
    exact congrArg₂ List.cons hsame hresults

/-- Keep the numbers below `n` and move the others up by `k`. -/
def shiftFrom (n k id : Nat) : Nat := if id < n then id else id + k

/-- No two numbers become one. -/
theorem shiftFrom_injective (n k : Nat) : Function.Injective (shiftFrom n k) := by
  intro i j h
  unfold shiftFrom at h
  split at h <;> split at h <;> omega

/-- The shift as a renaming of what happens from `n` on. -/
def shifting (first n k limit : Nat) : Renumbering where
  name := shiftFrom n k
  injective := shiftFrom_injective n k
  first := first
  low := n
  limit := limit
  gap := k
  name_eq _ hid _ := if_neg (Nat.not_lt.2 hid)

/-- The shift as a renaming of what has happened up to `n`: nothing
changes. -/
def keeping (first n k : Nat) : Renumbering where
  name := shiftFrom n k
  injective := shiftFrom_injective n k
  first := first
  low := 0
  limit := n
  gap := 0
  name_eq _ _ hid := if_pos hid

section Reached

variable {d : Discovery} {addr : Word} {regs : RegFile} {level : Level} {p m : Progress}

/-- No state of a run mentions an assignment that has not been made yet:
renaming those changes nothing. -/
theorem Reached.alike (hd : d.Ready regs) (h : Reached d addr regs level p) {n : Nat} (k : Nat)
    (hn : p.builder.issued ≤ n) : p.Alike (keeping d.ledger.next n k) p := by
  have hkeeps {low : Nat} (hlow : low ≤ n) (id : AssignId) (hid : id < low) :
      shiftFrom n k id = id := if_pos (Nat.lt_of_lt_of_le hid hlow)
  -- One more thing happens: what it does under the renaming is what it
  -- does, if nothing it starts from is renamed.
  have hstep (a : Action) {p : Progress}
      (hp : p.builder.issued ≤ n → p.Alike (keeping d.ledger.next n k) p)
      (ha : p.builder.issued ≤ n → a.rename (shiftFrom n k) = a)
      (hle : (a.run p).2.builder.issued ≤ n) :
      (a.run p).2.Alike (keeping d.ledger.next n k) (a.run p).2 := by
    have htracks := a.tracks_run (keeping d.ledger.next n k)
    have hbefore := Nat.le_trans (htracks.counts p) hle
    have hfollows := (htracks.follows p p (hp hbefore) hle).1
    have hsame : a.rename (keeping d.ledger.next n k).name = a := ha hbefore
    rwa [hsame] at hfollows
  have hperform (level : Level) {p : Progress} {op : Operation} (hop : op.Known p.builder.issued)
      (hle : p.builder.issued ≤ n) :
      (Action.perform level op).rename (shiftFrom n k) = .perform level op := by
    rw [Action.rename, hop (shiftFrom n k) (hkeeps hle)]
  induction h with
  | start =>
    have hblocks : d.ledger.finished = d.ledger.finished.map (Block.rename (shiftFrom n k)) :=
      (List.map_id _).symm.trans
        (List.map_congr_left fun b hb => (hd.blocks b hb _ (hkeeps hn)).symm)
    refine ⟨⟨⟨hblocks, rfl, rfl, Nat.le_succ _, hd.last, hd.last⟩, ?_, ?_, rfl, Nat.zero_le _, rfl⟩,
      rfl, rfl, .nil, ?_, ?_⟩
    · show some _ = some (OpenBlock.rename (shiftFrom n k) _)
      rw [OpenBlock.rename, hd.regs _ (hkeeps hn)]
      rfl
    · intro blk hblk
      cases hblk
      exact Nat.le_refl _
    · exact fun _ h => absurd h List.not_mem_nil
    · exact fun _ h => absurd h List.not_mem_nil
  | perform _ hop ih => exact hstep _ ih (hperform _ hop) hn
  | branch _ hop ih => exact hstep _ ih (hperform _ hop) hn
  | enter _ ih => exact hstep .enter ih (fun _ => rfl) hn
  | leave _ ih => exact hstep .leave ih (fun _ => rfl) hn
  | drain site _ ih => exact hstep (.drain site) ih (fun _ => rfl) hn

/-- Rolling back leads to a state like the one of the checkpoint, provided
that the queue is as it was. -/
theorem Reached.alike_undo (hd : d.Ready regs) (h : Reached d addr regs level p)
    (hm : m.Since p.builder) (hpending : m.pending = p.pending) (limit : Nat) :
    p.Alike (shifting d.ledger.next p.builder.issued (m.builder.issued - p.builder.issued) limit)
      (p.undo m) := by
  have hself := h.alike hd (m.builder.issued - p.builder.issued) (Nat.le_refl _)
  have hledger := hself.builder.ledger
  refine ⟨?_, hpending.trans hself.pending, hself.saved, hself.trace, hself.arms,
    hself.checkpoints⟩
  -- The ledger now remembers the last block that is still there, and not
  -- one that an earlier run has taken out.
  rw [Progress.undo, hm.builder.rollback_eq]
  exact ⟨⟨hledger.finished, rfl, rfl, hledger.first_le, hledger.last, .inl rfl⟩,
    hself.builder.current, hself.builder.first_le, rfl, Nat.le_refl _,
    (Nat.add_sub_of_le hm.builder.issued_le).symm⟩

/-- After any operations, failed ones and ones with checkpoints of their
own included, rolling back restores the open block, the instruction
address, the finished blocks and the numbers handed out. Only arms that
the operations have queued stay behind, for blocks whose numbers have been
given back; outside of all arms there are none.

If there are none, everything that is done later has the same results as
if it were done right after the checkpoint, and leads to the same states,
but for the numbers of the assignments made from the checkpoint on. -/
theorem rollback_undoes (hd : d.Ready regs) (hp : Reached d addr regs level p)
    (ops : List Operation) :
    let m := operate level ops { p with saved := [] }
    let q := p.undo m
    let f := shiftFrom p.builder.issued (m.builder.issued - p.builder.issued)
    (q.builder.current = p.builder.current ∧ q.builder.instrAddr = p.builder.instrAddr ∧
      q.builder.ledger.finished = p.builder.ledger.finished ∧
      q.builder.ledger.next = p.builder.ledger.next ∧
      q.builder.ledger.emitted = p.builder.ledger.emitted) ∧
    (∃ arms, q.pending = p.pending ++ arms ∧
      (∀ arm ∈ arms, q.builder.ledger.next ≤ arm.index) ∧ (level = .outermost → arms = [])) ∧
    (q.pending = p.pending → ∀ later : List Action,
      (Action.runAll (later.map (Action.rename f)) q).1 = (Action.runAll later p).1 ∧
      (Action.runAll later p).2.Matches f (Action.runAll (later.map (Action.rename f)) q).2) := by
  intro m q f
  have hm : m.Since p.builder := since_operate level ops p
  have hq : q.builder = { p.builder with
      issued := m.builder.issued
      ledger := { p.builder.ledger with
        last := p.builder.ledger.finished.getLast?.map Block.index } } :=
    hm.builder.rollback_eq
  refine ⟨?_, ?_, ?_⟩
  · rw [hq]
    exact ⟨rfl, rfl, rfl, rfl, rfl⟩
  · rw [hq]
    cases level with
    | outermost =>
      have hempty : m.pending = [] :=
        operate_outermost_settled ops (p := { p with saved := [] }) hp.settled
      refine ⟨[], ?_, fun _ h => absurd h List.not_mem_nil, fun _ => rfl⟩
      rw [List.append_nil]
      exact hempty.trans hp.settled.symm
    | arm =>
      obtain ⟨arms, hpending, hnew⟩ := (queued_operate ops p).pending
      exact ⟨arms, hpending, hnew, fun h => by cases h⟩
  · intro hpending later
    -- The limit is where the later run ends, so that all of it is covered.
    obtain ⟨hstate, hresults⟩ := Action.runAll_follows later
      (hp.alike_undo hd hm hpending (Action.runAll later p).2.builder.issued) (Nat.le_refl _)
    exact ⟨hresults, hstate.toMatches⟩

end Reached

/-! ### Arms that are left over -/

/-- A machine with two flags. -/
def flagsMachine : Machine where
  name := "flags"
  addrWidth := 64
  order := .little
  registers := [.word64 "ip", .flag "z", .flag "c"]
  ip := 0
  sp := 0

/-- Some instruction of it. -/
def flagsSite : Site where
  machine := flagsMachine
  image := .ofCode .little 0x1000 [0]
  addr := 0x1000
  size := 1

/-- A branch on a flag, with nothing in its arms. -/
def branchOn (r : Reg) : Operation where
  site := flagsSite
  recipe := .branch (.leaf (.reg r)) .done .done .done
  temps := []

/-- Registers are not assignments, so nothing in it is renamed. -/
theorem branchOn_known (r : Reg) (n : AssignId) : (branchOn r).Known n := fun _ _ => rfl

/-- In the first arm of a branch, with the second one waiting. -/
def inFirstArm : Progress :=
  (Action.enter.run ((Action.perform .arm (branchOn 1)).run
    { builder := .start {} 0x1000 (.symbolic flagsMachine) }).2).2

/-- A branch inside the arm is rolled back. Its two arms wait for blocks 3
and 4, which are not handed out any more, and working off the queue
fails. -/
theorem rollback_undoes_inFirstArm :
    ({} : Discovery).Ready (.symbolic flagsMachine) ∧
    Reached {} 0x1000 (.symbolic flagsMachine) .arm inFirstArm ∧
    let q := inFirstArm.undo (operate .arm [branchOn 2] { inFirstArm with saved := [] })
    q.builder.current = inFirstArm.builder.current ∧
      q.builder.ledger.finished = inFirstArm.builder.ledger.finished ∧
      q.builder.ledger.next = 3 ∧
      inFirstArm.pending.map Arm.index = [2] ∧ q.pending.map Arm.index = [2, 3, 4] ∧
      (Action.runAll [.leave, .drain flagsSite] inFirstArm).1 = [.ok (), .ok ()] ∧
      (Action.runAll [.leave, .drain flagsSite] q).1 =
        [.ok (), .error (.violation (.unallocatedBlock 3))] := by
  have hready : ({} : Discovery).Ready (.symbolic flagsMachine) :=
    ⟨.inl rfl, fun _ h => absurd h List.not_mem_nil, fun _ _ => rfl⟩
  have hreached : Reached {} 0x1000 (.symbolic flagsMachine) .arm inFirstArm :=
    .enter (.branch .start (branchOn_known 1 _))
  obtain ⟨⟨hcurrent, -, hfinished, hnext, -⟩, -, -⟩ :=
    rollback_undoes hready hreached [branchOn 2]
  refine ⟨hready, hreached, hcurrent, hfinished, hnext.trans ?_, ?_, ?_, ?_, ?_⟩
  · decide +kernel
  · decide +kernel
  · decide +kernel
  · decide +kernel
  · decide +kernel

end FlowRecovery.Recipe
